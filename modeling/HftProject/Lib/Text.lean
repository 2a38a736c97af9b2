import HftProject.Lib.Decimal

/-!
Numbers in text as the C++ library reads and writes them, and strings that end with a NUL.
-/

namespace HftProject

open Decimal Rounding

abbrev Text := List Char

/-- `operator<<` of an `int`. -/
def putInt (i : Int) : Text :=
  if i < 0 then '-' :: Nat.toDigits 10 i.natAbs else Nat.toDigits 10 i.natAbs

/-- `std::stoi`, which throws where there is no number or none that an `int` holds. -/
def stoi (text : Text) : Option Int := do
  let (i, _) ← readInt text
  if -2 ^ 31 ≤ i ∧ i < 2 ^ 31 then return i else none

/-- `atoi`, which is 0 where there is no number. Nothing is defined for a number that no `int`
holds. -/
def atoi (text : Text) : Option Int :=
  match readInt text with
  | none => some 0
  | some (i, _) => if -2 ^ 31 ≤ i ∧ i < 2 ^ 31 then some i else none

/-- `std::stod`, for numbers within the range of `double`. -/
def stod {R : Type} [Field R] (text : Text) : Option R :=
  (readNumber (text.dropWhile isSpace)).map fun number => number.1.toField

/-- Single precision, for numbers within the range of `float`. -/
def float {R : Type} [Field R] [LinearOrder R] [FloorRing R] (x : R) : R := roundBinary 24 x

/-- `std::stof` -/
def stof {R : Type} [Field R] [LinearOrder R] [FloorRing R] (text : Text) : Option R :=
  (stod text).map float

/-- The string in a buffer that ends with a NUL. -/
def cString (buffer : Text) : Text := buffer.takeWhile (· ≠ '\x00')

/-! ### Whole numbers -/

theorem putInt_eq (i : Int) :
    putInt i = (if decide (i < 0) then ['-'] else []) ++ Nat.toDigits 10 i.natAbs := by
  rw [putInt]
  simp only [decide_eq_true_eq]
  split
  · rfl
  · rfl

theorem putInt_ne_nil (i : Int) : putInt i ≠ [] := by
  rw [putInt_eq]
  exact List.append_ne_nil_of_right_ne_nil _ Nat.toDigits_ne_nil

theorem numeralChar_putInt (i : Int) : ∀ c ∈ putInt i, NumeralChar c := by
  rw [putInt_eq]
  exact numeralChar_append (numeralChar_sign _) (allDigits_toDigits _).numeralChar

theorem readInt_putInt (i : Int) {rest : Text} (hrest : NoDigit rest) :
    readInt (putInt i ++ rest) = some (i, rest) := by
  have hvalue : (if decide (i < 0) = true then -(value (Nat.toDigits 10 i.natAbs) : Int)
      else value (Nat.toDigits 10 i.natAbs)) = i := by
    rw [value_toDigits]
    simp only [decide_eq_true_eq]
    split <;> omega
  rw [putInt_eq, List.append_assoc, readInt_digits _ (allDigits_toDigits _) Nat.toDigits_ne_nil
    hrest, hvalue]

theorem putInt_injective {i j : Int} (h : putInt i = putInt j) : i = j := by
  have hi := readInt_putInt i noDigit_nil
  rw [h, readInt_putInt j noDigit_nil] at hi
  exact (Prod.mk.inj (Option.some.inj hi)).1.symm

theorem length_readSign (text : Text) :
    (if (readSign text).1 then 1 else 0) + (readSign text).2.length ≤ text.length := by
  unfold readSign
  split
  · simp [Nat.add_comm]
  · simp
  · simp

/-- No shorter text than its own is read as a number. -/
theorem length_putInt_le {text rest : Text} {i : Int} (h : readInt text = some (i, rest)) :
    (putInt i).length ≤ text.length := by
  have hspace := (List.dropWhile_sublist isSpace (l := text)).length_le
  have hsign := length_readSign (text.dropWhile isSpace)
  simp only [readInt] at h
  generalize readSign (text.dropWhile isSpace) = signed at h hsign
  have htake := (List.takeWhile_sublist Char.isDigit (l := signed.2)).length_le
  split at h
  · cases h
  · rename_i ds rest' hne heq
    obtain ⟨rfl, rfl⟩ := Prod.mk.inj heq
    obtain ⟨rfl, rfl⟩ := Prod.mk.inj (Option.some.inj h)
    have hvalue := length_toDigits_value_le (fun c hc => List.mem_takeWhile_imp hc) hne
    rw [putInt_eq, List.length_append]
    split at hsign
    · rename_i hnegative
      rw [if_pos hnegative, Int.natAbs_neg, Int.natAbs_natCast]
      split <;> simp only [List.length_cons, List.length_nil] <;> omega
    · rename_i hnegative
      rw [if_neg hnegative, Int.natAbs_natCast, if_neg (by simp)]
      simp only [List.length_nil]
      omega

theorem readInt_of_stoi {text : Text} {i : Int} (h : stoi text = some i) :
    ∃ rest, readInt text = some (i, rest) := by
  obtain ⟨⟨j, rest⟩, hread, hrange⟩ := Option.bind_eq_some_iff.mp h
  refine ⟨rest, ?_⟩
  dsimp only at hrange
  split at hrange
  · obtain rfl := Option.some.inj hrange
    exact hread
  · cases hrange

/-- A suffix of a fraction and a number reads as the number only if nothing but zeros is left
of the fraction. -/
theorem zeros_of_readInt {text left fraction rest : Text} {i : Int}
    (hsuffix : text <:+ left ++ putInt i) (hleft : left <:+ '.' :: fraction)
    (hfraction : AllDigits fraction) (hread : readInt text = some (i, rest)) :
    ∃ zeros, text = zeros ++ putInt i ∧ (∀ c ∈ zeros, c = '0') ∧ (i < 0 → zeros = []) := by
  obtain ⟨zeros, rfl⟩ := List.suffix_of_suffix_length_le (List.suffix_append left (putInt i))
    hsuffix (length_putInt_le hread)
  refine ⟨zeros, rfl, ?_⟩
  obtain ⟨front, hfront⟩ := hsuffix
  rw [← List.append_assoc] at hfront
  have hzeros : zeros <:+ '.' :: fraction :=
    List.IsSuffix.trans ⟨front, List.append_cancel_right hfront⟩ hleft
  rcases List.suffix_cons_iff.mp hzeros with rfl | hzeros
  · cases hread
  · have hdigits : AllDigits zeros := hfraction.sublist hzeros.sublist
    by_cases hnil : zeros = []
    · subst hnil
      exact ⟨fun c hc => (List.not_mem_nil hc).elim, fun _ => rfl⟩
    · by_cases hnegative : i < 0
      · -- the sign stands behind the digits, and is not read
        have hsign : NoDigit ('-' :: Nat.toDigits 10 i.natAbs) := by
          rintro c ⟨⟩
          rfl
        have hdigitsRead := readInt_digits false hdigits hnil hsign
        rw [putInt, if_pos hnegative] at hread
        obtain ⟨hvalue, -⟩ := Prod.mk.inj (Option.some.inj (hread.symm.trans hdigitsRead))
        rw [if_neg Bool.false_ne_true] at hvalue
        omega
      · have hall := hdigits.append (allDigits_toDigits i.natAbs)
        have hdigitsRead := readInt_digits false hall (List.append_ne_nil_of_left_ne_nil hnil _)
          noDigit_nil
        rw [putInt, if_neg hnegative] at hread
        rw [List.append_nil] at hdigitsRead
        obtain ⟨hvalue, -⟩ := Prod.mk.inj (Option.some.inj (hread.symm.trans hdigitsRead))
        rw [if_neg Bool.false_ne_true, value_append, value_toDigits] at hvalue
        have hzero : value zeros * 10 ^ (Nat.toDigits 10 i.natAbs).length = 0 := by omega
        have hpow : 0 < 10 ^ (Nat.toDigits 10 i.natAbs).length := Nat.pow_pos (by decide)
        exact ⟨eq_zero_of_value hdigits ((Nat.mul_eq_zero.mp hzero).resolve_right hpow.ne'),
          fun h => absurd h hnegative⟩

/-- Zeros in front of a number without a sign are no matter. -/
theorem readInt_zeros {zeros : Text} {i : Int} (hzeros : ∀ c ∈ zeros, c = '0')
    (hsign : i < 0 → zeros = []) : readInt (zeros ++ putInt i) = some (i, []) := by
  by_cases hnegative : i < 0
  · have hread := readInt_putInt i noDigit_nil
    rw [List.append_nil] at hread
    rw [hsign hnegative]
    exact hread
  · have hdigits : AllDigits zeros := fun c hc => by rw [hzeros c hc]; rfl
    have hread := readInt_digits false (hdigits.append (allDigits_toDigits i.natAbs))
      (List.append_ne_nil_of_right_ne_nil _ Nat.toDigits_ne_nil) noDigit_nil
    rw [List.append_nil, value_append, value_toDigits, value_zeros hzeros] at hread
    rw [putInt, if_neg hnegative]
    refine hread.trans ?_
    rw [if_neg Bool.false_ne_true, Nat.zero_mul, Nat.zero_add, Int.natAbs_of_nonneg (by omega)]

/-! ### Digits as a number with a fraction -/

theorem stod_digits {R : Type} [Field R] {ds : Text} (h : AllDigits ds) (hne : ds ≠ []) :
    stod ds = some (value ds : R) := by
  have hread := readNumber_layout false h hne (fun c hc => (List.not_mem_nil hc).elim)
    endsNumber_nil.endsFraction
  have hspace : ds.dropWhile isSpace = ds := by
    obtain ⟨c, cs, rfl⟩ := List.exists_cons_of_ne_nil hne
    exact dropWhile_isSpace_sign (h c List.mem_cons_self) false cs
  rw [layout, if_pos rfl, List.append_nil, endsNumber_nil.readExponent, if_neg Bool.false_ne_true,
    List.nil_append] at hread
  rw [stod, hspace, hread]
  simp [Number.toField]

end HftProject
