import ClaimTriage.Theory.Numeral

/-!
# Decimal Numbers as They Are Spelled

A non-negative decimal number that keeps its spelling: a coefficient and a
power of ten, so that `1.5`, `1.50` and `15e-1` are one amount but `1.5` and
`1.50` two values. Its text is the one the decimal arithmetic specification
gives, with an exponent only where the number has more digits than it spells
out.

`ofText_text` is that the text keeps the spelling. `quantized` is what a column
with a fixed number of places makes of a number that fits in it: the same
amount, always spelled with that many places.

## Main definitions

* `Decimal`: A coefficient and an exponent.
* `Decimal.text`: The text of a number, its spelling kept.
* `Decimal.ofText`: The number a text spells.
* `Decimal.Fits`: A number has no more than some decimal places.
* `Decimal.quantized`: The number spelled with exactly so many places.

## Theorems

* `Decimal.ofText_text`: A number is recovered from its text.
* `Decimal.quantized_quantized`: Spelling a number out again changes nothing.
* `Decimal.quantized_eq_self_iff`: What is spelled out as it was.
-/

namespace Theory

/-- A coefficient and the power of ten it is taken by. -/
@[ext]
structure Decimal where
  coefficient : Nat
  exponent : Int
  deriving DecidableEq

namespace Decimal

open Text Numeral

/-- The letter between a coefficient and its exponent. -/
def exponentMark : CodePoint := 0x45

/-- The point between whole part and fraction. -/
def point : CodePoint := 0x2E

/-- Digits with the point set so many places from their left end. -/
def pointed (digits : Str) (place : Int) : Str :=
  if place ≤ 0 then
    digit 0 :: point :: (List.replicate (-place).toNat (digit 0) ++ digits)
  else if digits.length ≤ place then
    digits
  else
    digits.take place.toNat ++ point :: digits.drop place.toNat

/-- The text of a number. The exponent is spelled out when it is positive, and
    when the number would begin with more than six zeros otherwise. -/
def text (d : Decimal) : Str :=
  let digits := decimal d.coefficient
  let left := d.exponent + digits.length
  if d.exponent ≤ 0 ∧ -6 < left then
    pointed digits left
  else
    pointed digits 1 ++ exponentMark :: (if 0 ≤ left - 1 then [0x2B] else []) ++ signed (left - 1)

/-- The integer a text with an optional sign spells. -/
def signedValue : Str → Int
  | [] => 0
  | c :: rest =>
    if c = 0x2D then -(value 10 rest : Int) else if c = 0x2B then value 10 rest
      else value 10 (c :: rest)

/-- The number a text spells: what the point and the exponent mark divide it
    into. -/
def ofText (s : Str) : Decimal :=
  let mantissa := s.takeWhile (· ≠ exponentMark)
  let whole := mantissa.takeWhile (· ≠ point)
  let places := mantissa.drop (whole.length + 1)
  { coefficient := value 10 (whole ++ places),
    exponent := signedValue (s.drop (mantissa.length + 1)) - places.length }

/-- The coefficient times ten to the exponent, in units of so many places;
    whole units only. -/
def units (places : Nat) (d : Decimal) : Nat :=
  d.coefficient * 10 ^ (d.exponent + places).toNat / 10 ^ (-(d.exponent + places)).toNat

/-- The number has no more than some decimal places: what it spells beyond
    them is zeros. -/
def Fits (places : Nat) (d : Decimal) : Prop :=
  10 ^ (-(d.exponent + places)).toNat ∣ d.coefficient

instance (places : Nat) (d : Decimal) : Decidable (Fits places d) :=
  inferInstanceAs (Decidable (_ ∣ _))

/-- The number spelled with exactly so many places. -/
def quantized (places : Nat) (d : Decimal) : Decimal where
  coefficient := d.units places
  exponent := -places

theorem isDigit_zero : IsDigit (digit 0) := isDigit_digit (by decide)

theorem point_not_digit : ¬ IsDigit point := by decide

theorem exponentMark_not_digit : ¬ IsDigit exponentMark := by decide

/-- Setting the point divides the digits, and loses none. -/
theorem pointed_split {digits : Str} {place : Int} (hdigits : ∀ c ∈ digits, IsDigit c)
    (hplace : place ≤ digits.length) :
    ∃ whole places : Str, (∀ c ∈ whole, IsDigit c) ∧ (∀ c ∈ places, IsDigit c) ∧
      (pointed digits place = whole ++ point :: places ∨
        pointed digits place = whole ∧ places = []) ∧
      value 10 (whole ++ places) = value 10 digits ∧
      (places.length : Int) = digits.length - place := by
  unfold pointed
  split
  · -- The number begins with zeros.
    refine ⟨[digit 0], List.replicate (-place).toNat (digit 0) ++ digits,
      ?_, ?_, Or.inl rfl, ?_, ?_⟩
    · intro c hc
      rw [List.mem_singleton.mp hc]
      exact isDigit_zero
    · intro c hc
      rcases List.mem_append.mp hc with hc | hc
      · rw [List.eq_of_mem_replicate hc]
        exact isDigit_zero
      · exact hdigits c hc
    · rw [← List.append_assoc]
      exact value_replicate_append 10 (_ + 1) digits
    · rw [List.length_append, List.length_replicate]
      omega
  · split
    · -- There is no fraction.
      refine ⟨digits, [], hdigits, fun c hc => absurd hc List.not_mem_nil,
        Or.inr ⟨rfl, rfl⟩, ?_, ?_⟩
      · rw [List.append_nil]
      · rw [List.length_nil]
        omega
    · -- The point stands among the digits.
      refine ⟨digits.take place.toNat, digits.drop place.toNat,
        fun c hc => hdigits c (List.mem_of_mem_take hc),
        fun c hc => hdigits c (List.mem_of_mem_drop hc), Or.inl rfl, ?_, ?_⟩
      · rw [List.take_append_drop]
      · rw [List.length_drop]
        omega

/-- A text of digits is taken whole up to what follows it. -/
theorem takeWhile_digits {s r : Str} {mark : CodePoint} (hs : ∀ c ∈ s, IsDigit c)
    (hmark : ¬ IsDigit mark) (hr : ∀ c ∈ r.head?, c = mark) :
    (s ++ r).takeWhile (· ≠ mark) = s := by
  have hne : ∀ c ∈ s, decide (c ≠ mark) = true := by
    intro c hc
    refine decide_eq_true fun h => hmark ?_
    rw [← h]
    exact hs c hc
  rw [List.takeWhile_append_of_pos hne]
  cases r with
  | nil => rw [List.takeWhile_nil, List.append_nil]
  | cons c rest =>
      have hc : c = mark := hr c rfl
      rw [List.takeWhile_cons_of_neg (by simp [hc]), List.append_nil]

theorem value_signed_nonneg {n : Int} (h : 0 ≤ n) : (value 10 (signed n) : Int) = n := by
  cases n with
  | ofNat k => rw [signed, value_decimal, Int.ofNat_eq_natCast]
  | negSucc k => omega

/-- The exponent is read back, its sign written out or not. -/
theorem signedValue_signed (n : Int) :
    signedValue ((if 0 ≤ n then [0x2B] else []) ++ signed n) = n := by
  split
  · rename_i h
    exact value_signed_nonneg h
  · rename_i h
    cases n with
    | ofNat k => exact absurd (Int.natCast_nonneg k) h
    | negSucc k =>
        change -(value 10 (decimal (k + 1)) : Int) = _
        rw [value_decimal, Int.negSucc_eq, Int.natCast_add]
        rfl

/-- What the reader makes of a pointed mantissa and an exponent. -/
theorem ofText_pointed {digits rest : Str} {place exponent : Int}
    (hdigits : ∀ c ∈ digits, IsDigit c) (hplace : place ≤ digits.length)
    (hhead : ∀ c ∈ rest.head?, c = exponentMark) (hrest : signedValue (rest.drop 1) = exponent) :
    ofText (pointed digits place ++ rest) =
      { coefficient := value 10 digits, exponent := exponent - (digits.length - place) } := by
  rcases pointed_split hdigits hplace with ⟨whole, places, hwhole, hplaces, hshape, hvalue, hlen⟩
  have hmark : ∀ c ∈ pointed digits place, decide (c ≠ exponentMark) = true := by
    have hdigit : ∀ c, IsDigit c → c ≠ exponentMark := by
      rintro c hc rfl
      exact exponentMark_not_digit hc
    intro c hc
    refine decide_eq_true ?_
    rcases hshape with hshape | ⟨hshape, _⟩
    · rw [hshape] at hc
      rcases List.mem_append.mp hc with hc | hc
      · exact hdigit c (hwhole c hc)
      · rcases List.mem_cons.mp hc with rfl | hc
        · decide
        · exact hdigit c (hplaces c hc)
    · rw [hshape] at hc
      exact hdigit c (hwhole c hc)
  have hmantissa : (pointed digits place ++ rest).takeWhile (· ≠ exponentMark) =
      pointed digits place := by
    rw [List.takeWhile_append_of_pos hmark]
    cases rest with
    | nil => rw [List.takeWhile_nil, List.append_nil]
    | cons c rest =>
        have hc : c = exponentMark := hhead c rfl
        rw [List.takeWhile_cons_of_neg (by simp [hc]), List.append_nil]
  have hwholeRead : (pointed digits place).takeWhile (· ≠ point) = whole := by
    rcases hshape with hshape | ⟨hshape, _⟩
    · rw [hshape]
      exact takeWhile_digits hwhole point_not_digit fun c hc => (Option.mem_some_iff.mp hc).symm
    · have h := takeWhile_digits (r := []) hwhole point_not_digit
        fun c hc => absurd hc (Option.not_mem_none c)
      rw [List.append_nil] at h
      rw [hshape, h]
  have hplacesRead : (pointed digits place).drop (whole.length + 1) = places := by
    rcases hshape with hshape | ⟨hshape, hnil⟩
    · rw [hshape, ← List.drop_drop, List.drop_left]
      rfl
    · rw [hshape, hnil, List.drop_eq_nil_of_le (Nat.le_succ _)]
  simp only [ofText, hmantissa, hwholeRead, hplacesRead, hvalue]
  rw [← List.drop_drop, List.drop_left, hrest, hlen]

/-- A number is recovered from its text, its spelling included. -/
theorem ofText_text (d : Decimal) : ofText d.text = d := by
  have hdigits : ∀ c ∈ decimal d.coefficient, IsDigit c := fun c hc => isDigit_of_mem_decimal hc
  have hpos : 0 < (decimal d.coefficient).length := List.length_pos_of_ne_nil (decimal_ne_nil _)
  simp only [text]
  generalize hleft : d.exponent + ((decimal d.coefficient).length : Int) = left
  split
  · have hplace : left ≤ (decimal d.coefficient).length := by omega
    have hhead : ∀ c ∈ ([] : Str).head?, c = exponentMark := fun c hc =>
      absurd hc (Option.not_mem_none c)
    have h := ofText_pointed hdigits hplace hhead rfl
    rw [List.append_nil] at h
    rw [h, value_decimal]
    ext1
    · rfl
    · simp only [signedValue, List.drop_nil]
      omega
  · -- The exponent is one less than where the point would stand.
    have hplace : (1 : Int) ≤ (decimal d.coefficient).length := by omega
    have hhead : ∀ c ∈ (exponentMark :: ((if 0 ≤ left - 1 then [0x2B] else []) ++
        signed (left - 1))).head?, c = exponentMark := fun c hc => (Option.mem_some_iff.mp hc).symm
    have h := ofText_pointed hdigits hplace hhead (signedValue_signed (left - 1))
    rw [List.append_assoc, List.cons_append, h, value_decimal]
    ext1
    · rfl
    · simp only
      omega

theorem printable_pointed {digits : Str} (hdigits : Printable digits) (place : Int) :
    Printable (pointed digits place) := by
  have hpoint : 0x20 ≤ point.val ∧ point.val < 0x7F := by decide
  have hzero : 0x20 ≤ (digit 0).val ∧ (digit 0).val < 0x7F := by decide
  unfold pointed
  split
  · have hzeros : Printable (List.replicate (-place).toNat (digit 0)) := by
      intro c hc
      rw [List.eq_of_mem_replicate hc]
      exact hzero
    simp only [printable_cons, printable_append, hzero, hpoint, hzeros, hdigits, and_self]
  · split
    · exact hdigits
    · simp only [printable_append, printable_cons, hpoint, true_and, and_self]
      exact ⟨fun c hc => hdigits c (List.mem_of_mem_take hc),
        fun c hc => hdigits c (List.mem_of_mem_drop hc)⟩

/-- The text of a number is printable. -/
theorem printable_text (d : Decimal) : Printable d.text := by
  have hmark : 0x20 ≤ exponentMark.val ∧ exponentMark.val < 0x7F := by decide
  have hsign : ∀ n : Int, Printable (if 0 ≤ n then [0x2B] else []) := by
    intro n
    split <;> decide
  simp only [text]
  split
  · exact printable_pointed (printable_decimal _) _
  · simp only [printable_append, printable_cons, printable_pointed (printable_decimal _), hmark,
      hsign, printable_signed, and_self]

/-- Spelling a number out again changes nothing. -/
theorem quantized_quantized (places : Nat) (d : Decimal) :
    (d.quantized places).quantized places = d.quantized places := by
  ext1
  · simp only [quantized, units, Int.add_left_neg, Int.neg_zero, Int.toNat_zero, Nat.pow_zero,
      Nat.mul_one, Nat.div_one]
  · rfl

/-- Only a number that is spelled with exactly so many places is spelled out as it was. -/
theorem quantized_eq_self_iff {places : Nat} {d : Decimal} :
    d.quantized places = d ↔ d.exponent = -places := by
  constructor
  · intro h
    rw [← h, quantized]
  · intro h
    ext1
    · have hzero : d.exponent + places = 0 := by omega
      simp only [quantized, units, hzero, Int.toNat_zero, Int.neg_zero, Nat.pow_zero, Nat.mul_one,
        Nat.div_one]
    · exact h.symm

theorem fits_quantized (places : Nat) (d : Decimal) : Fits places (d.quantized places) := by
  simp only [Fits, quantized, Int.add_left_neg, Int.neg_zero, Int.toNat_zero, Nat.pow_zero,
    Nat.one_dvd]

theorem units_quantized (places : Nat) (d : Decimal) :
    (d.quantized places).units places = d.units places :=
  congrArg coefficient (quantized_quantized places d)

end Decimal

end Theory
