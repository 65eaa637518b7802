import ClaimTriage.Theory.Text

/-!
# Numerals

Numbers as the texts a formatter writes: in a base with a fixed number of
places, zero-padded, or in decimal with no padding and a sign.

Both are read back by one function, `value`, which is what makes them
injective. A fixed-width numeral is read back up to the width it has room for;
a decimal one is read back whatever its size.

## Main definitions

* `digit`: The character of one digit.
* `fixed`: A number in a base, with a fixed number of places.
* `decimal`: A natural number in decimal.
* `signed`: An integer in decimal, a minus sign before a negative one.
* `value`: What a text of digits reads as.
* `IsDigit`: A decimal digit.
* `maxStrDigits`: How many digits an interpreter converts.

## Theorems

* `value_fixed`: A fixed-width numeral reads back as its number.
* `fixed_inj`: Fixed-width numerals of numbers that fit are told apart.
* `value_decimal`: A decimal numeral reads back as its number.
* `isDigit_of_mem_decimal`: A decimal numeral holds digits only.
-/

namespace Theory

namespace Numeral

open Text

/-- The character of one digit, lower case above nine. -/
def digit (d : Nat) : CodePoint :=
  ofChar d.digitChar

/-- What one character counts for as a digit. -/
def digitVal (c : CodePoint) : Nat :=
  if c.val < 0x3A then c.val - 0x30 else c.val - 0x57

/-- A decimal digit. -/
def IsDigit (c : CodePoint) : Prop :=
  0x30 ≤ c.val ∧ c.val ≤ 0x39

instance (c : CodePoint) : Decidable (IsDigit c) :=
  inferInstanceAs (Decidable (_ ∧ _))

/-- How many digits an interpreter makes an integer of, or writes one with. -/
def maxStrDigits : Nat :=
  4300

/-- A number in base `b` with `w` places, the most significant first. -/
def fixed (b : Nat) : Nat → Nat → Str
  | 0, _ => []
  | w + 1, n => fixed b w (n / b) ++ [digit (n % b)]

/-- A natural number in decimal, with no padding. -/
def decimal (n : Nat) : Str :=
  (Nat.toDigits 10 n).map ofChar

/-- An integer in decimal, a minus sign before a negative one. -/
def signed : Int → Str
  | .ofNat n => decimal n
  | .negSucc n => text "-" ++ decimal (n + 1)

/-- What a text of digits reads as in base `b`. -/
def value (b : Nat) (s : Str) : Nat :=
  s.foldl (fun acc c => acc * b + digitVal c) 0

theorem digitVal_digit {d : Nat} (h : d < 16) : digitVal (digit d) = d := by
  have hall : ∀ d < 16, digitVal (digit d) = d := by decide
  exact hall d h

theorem isDigit_digit {d : Nat} (h : d < 10) : IsDigit (digit d) := by
  have hall : ∀ d < 10, IsDigit (digit d) := by decide
  exact hall d h

theorem value_append_digit (b : Nat) (s : Str) (c : CodePoint) :
    value b (s ++ [c]) = value b s * b + digitVal c := by
  simp only [value, List.foldl_append, List.foldl_cons, List.foldl_nil]

/-- Leading zeros count for nothing. -/
theorem value_replicate_append (b k : Nat) (s : Str) :
    value b (List.replicate k (digit 0) ++ s) = value b s := by
  induction k with
  | zero => rfl
  | succ k ih =>
      rw [List.replicate_succ, List.cons_append, ← ih]
      simp only [value, List.foldl_cons, Nat.zero_mul, digitVal_digit (by decide : 0 < 16)]

@[simp]
theorem length_fixed (b w n : Nat) : (fixed b w n).length = w := by
  induction w generalizing n with
  | zero => rfl
  | succ w ih => rw [fixed, List.length_append, ih, List.length_singleton]

/-- A fixed-width numeral reads back as its number, when the number fits. -/
theorem value_fixed {b : Nat} (hb : 0 < b) (hb16 : b ≤ 16) (w n : Nat) (hn : n < b ^ w) :
    value b (fixed b w n) = n := by
  induction w generalizing n with
  | zero =>
      rw [Nat.pow_zero] at hn
      have hzero : n = 0 := by omega
      rw [hzero]
      rfl
  | succ w ih =>
      have hmod : n % b < 16 := Nat.lt_of_lt_of_le (Nat.mod_lt n hb) hb16
      have hdiv : n / b < b ^ w := Nat.div_lt_of_lt_mul (by rwa [Nat.pow_succ'] at hn)
      rw [fixed, value_append_digit, ih (n / b) hdiv, digitVal_digit hmod]
      exact Nat.div_add_mod' n b

/-- Fixed-width numerals of numbers that fit are told apart. -/
theorem fixed_inj {b : Nat} (hb : 0 < b) (hb16 : b ≤ 16) {w n m : Nat} (hn : n < b ^ w)
    (hm : m < b ^ w) (h : fixed b w n = fixed b w m) : n = m := by
  rw [← value_fixed hb hb16 w n hn, h, value_fixed hb hb16 w m hm]

/-- A fixed-width decimal numeral holds digits only. -/
theorem isDigit_of_mem_fixed {w n : Nat} {c : CodePoint} (h : c ∈ fixed 10 w n) : IsDigit c := by
  induction w generalizing n with
  | zero => simp only [fixed, List.not_mem_nil] at h
  | succ w ih =>
      rw [fixed, List.mem_append, List.mem_singleton] at h
      rcases h with h | rfl
      · exact ih h
      · exact isDigit_digit (Nat.mod_lt n (by decide))

/-- A fixed-width numeral is printable, in any base there are digits for. -/
theorem printable_fixed {b : Nat} (hb : 0 < b) (hb16 : b ≤ 16) (w n : Nat) :
    Printable (fixed b w n) := by
  have hall : ∀ d < 16, 0x20 ≤ (digit d).val ∧ (digit d).val < 0x7F := by decide
  induction w generalizing n with
  | zero => exact printable_nil
  | succ w ih =>
      refine (printable_append _ _).mpr ⟨ih _, fun c hc => ?_⟩
      rw [List.mem_singleton.mp hc]
      exact hall _ (Nat.lt_of_lt_of_le (Nat.mod_lt _ hb) hb16)

/-- The two shapes of a decimal numeral, which its proofs recurse on. -/
theorem decimal_eq (n : Nat) :
    decimal n = if n < 10 then [digit n] else decimal (n / 10) ++ [digit (n % 10)] := by
  unfold decimal
  rw [Nat.toDigits_eq_if (by decide : 1 < 10)]
  split
  · rfl
  · rw [List.map_append]
    rfl

/-- A decimal numeral reads back as its number. -/
theorem value_decimal (n : Nat) : value 10 (decimal n) = n := by
  induction n using Nat.strong_induction_on with
  | _ n ih =>
    rw [decimal_eq]
    split
    · rename_i h
      have hd := digitVal_digit (Nat.lt_trans h (by decide : 10 < 16))
      simpa only [value, List.foldl_cons, List.foldl_nil, Nat.zero_mul, Nat.zero_add] using hd
    · rename_i h
      have hd := digitVal_digit (Nat.lt_trans (Nat.mod_lt n (by decide : 10 > 0))
        (by decide : 10 < 16))
      rw [value_append_digit, ih (n / 10) (Nat.div_lt_self (by omega) (by decide)), hd]
      exact Nat.div_add_mod' n 10

theorem decimal_inj {n m : Nat} (h : decimal n = decimal m) : n = m := by
  rw [← value_decimal n, h, value_decimal m]

theorem isDigit_of_mem_decimal {n : Nat} {c : CodePoint} (h : c ∈ decimal n) : IsDigit c := by
  induction n using Nat.strong_induction_on with
  | _ n ih =>
    rw [decimal_eq] at h
    split at h
    · rename_i hn
      rw [List.mem_singleton] at h
      rw [h]
      exact isDigit_digit hn
    · rename_i hn
      rw [List.mem_append, List.mem_singleton] at h
      rcases h with h | rfl
      · exact ih (n / 10) (Nat.div_lt_self (by omega) (by decide)) h
      · exact isDigit_digit (Nat.mod_lt n (by decide))

theorem printable_decimal (n : Nat) : Printable (decimal n) := by
  intro c hc
  have hd := isDigit_of_mem_decimal hc
  simp only [IsDigit] at hd
  omega

theorem printable_signed (n : Int) : Printable (signed n) := by
  cases n with
  | ofNat k => exact printable_decimal k
  | negSucc k => exact (printable_append _ _).mpr ⟨by decide, printable_decimal _⟩

theorem decimal_ne_nil (n : Nat) : decimal n ≠ [] := by
  rw [decimal_eq]
  split
  · exact List.cons_ne_nil _ _
  · exact List.append_ne_nil_of_right_ne_nil _ (List.cons_ne_nil _ _)

/-- A numeral begins with a digit, so a sign is never mistaken for one. -/
theorem exists_cons_decimal (n : Nat) : ∃ c rest, decimal n = c :: rest ∧ IsDigit c := by
  rcases List.exists_cons_of_ne_nil (decimal_ne_nil n) with ⟨c, rest, h⟩
  exact ⟨c, rest, h, isDigit_of_mem_decimal (by rw [h]; exact List.mem_cons_self)⟩

end Numeral

end Theory
