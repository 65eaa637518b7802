import ClaimTriage.Theory.Numeral
import Mathlib.Data.Rat.Floor
import Mathlib.Tactic.Linarith

/-!
# Rounding

Rational numbers taken to a grid, ties to the even neighbour: to a number of
decimal places, and to the text a formatter writes with so many places.

A number is never further from what it is rounded to than half a unit of the
grid, which is all that is used of rounding: how far a rounded value is off is
a matter of the places kept, and not of the value.

## Main definitions

* `nearest`: The nearest integer, the even one of two.
* `rounded`: A number to some decimal places.
* `fixed`: A number as the text with exactly so many places.

## Theorems

* `printable_fixed`: What a number is written as is printable.
* `abs_nearest_sub_le`: The nearest integer is at most a half off.
* `nearest_mono`: Rounding keeps the order.
* `nearest_intCast`: An integer is its own nearest.
* `abs_rounded_sub_le`: A rounded number is at most half a unit off.
* `rounded_mono`: Rounding to places keeps the order.
* `rounded_intCast_div`: A number with no more places is left as it is.
-/

namespace Theory

namespace Rounding

open Text Numeral

/-- The nearest integer, and the even one of two that are as near. -/
def nearest (x : ℚ) : ℤ :=
  let below := ⌊x⌋
  let rest := x - below
  if rest < 1 / 2 then below
  else if 1 / 2 < rest then below + 1
  -- A tie goes to the even neighbour.
  else if below % 2 = 0 then below
  else below + 1

/-- A number to some decimal places. -/
def rounded (places : Nat) (x : ℚ) : ℚ :=
  nearest (x * 10 ^ places) / 10 ^ places

/-- A number as it is written with exactly so many places. A negative number
    keeps its sign when nothing else of it is left. -/
def fixed (places : Nat) (x : ℚ) : Str :=
  let units := (nearest (|x| * 10 ^ places)).toNat
  (if x < 0 then text "-" else []) ++ decimal (units / 10 ^ places) ++
    (if places = 0 then [] else text "." ++ Numeral.fixed 10 places units)

/-- What a number is written as is printable. -/
theorem printable_fixed (places : Nat) (x : ℚ) : Printable (fixed places x) := by
  unfold fixed
  simp only [printable_append, printable_decimal]
  refine ⟨⟨?_, trivial⟩, ?_⟩
  · split
    · decide
    · exact printable_nil
  · split
    · exact printable_nil
    · exact (printable_append _ _).mpr
        ⟨by decide, Numeral.printable_fixed (by decide) (by decide) places _⟩

/-- The nearest integer is one of the two neighbours, and the nearer one. -/
theorem nearest_cases (x : ℚ) :
    (nearest x = ⌊x⌋ ∧ x - ⌊x⌋ ≤ 1 / 2) ∨ (nearest x = ⌊x⌋ + 1 ∧ 1 / 2 ≤ x - ⌊x⌋) := by
  unfold nearest
  by_cases hlow : x - ⌊x⌋ < 1 / 2
  · exact Or.inl ⟨if_pos hlow, hlow.le⟩
  · by_cases hhigh : 1 / 2 < x - ⌊x⌋
    · exact Or.inr ⟨by simp only [if_neg hlow, if_pos hhigh], hhigh.le⟩
    · by_cases heven : ⌊x⌋ % 2 = 0
      · exact Or.inl ⟨by simp only [if_neg hlow, if_neg hhigh, if_pos heven], le_of_not_gt hhigh⟩
      · exact Or.inr ⟨by simp only [if_neg hlow, if_neg hhigh, if_neg heven], le_of_not_gt hlow⟩

/-- The nearest integer is at most a half off. -/
theorem abs_nearest_sub_le (x : ℚ) : |(nearest x : ℚ) - x| ≤ 1 / 2 := by
  have hfloor : (⌊x⌋ : ℚ) ≤ x := Int.floor_le x
  have hceil : x < ⌊x⌋ + 1 := Int.lt_floor_add_one x
  rw [abs_le]
  rcases nearest_cases x with ⟨h, hle⟩ | ⟨h, hge⟩
  · rw [h]
    constructor <;> linarith
  · rw [h]
    push_cast
    constructor <;> linarith

/-- An integer is its own nearest. -/
theorem nearest_intCast (n : ℤ) : nearest n = n := by
  unfold nearest
  simp only [Int.floor_intCast, sub_self]
  exact if_pos (by norm_num)

/-- Rounding keeps the order. -/
theorem nearest_mono {x y : ℚ} (h : x ≤ y) : nearest x ≤ nearest y := by
  have hfloor : ⌊x⌋ ≤ ⌊y⌋ := Int.floor_le_floor h
  have hx : nearest x ≤ ⌊x⌋ + 1 := by
    rcases nearest_cases x with ⟨hx, _⟩ | ⟨hx, _⟩ <;> omega
  have hy : ⌊y⌋ ≤ nearest y := by
    rcases nearest_cases y with ⟨hy, _⟩ | ⟨hy, _⟩ <;> omega
  rcases hfloor.lt_or_eq with hlt | heq
  · -- An integer lies between the two.
    omega
  · -- Both lie over one integer, and what is over it decides.
    unfold nearest
    simp only [← heq]
    have hrest : x - ⌊x⌋ ≤ y - ⌊x⌋ := by linarith
    split_ifs <;> first | omega | linarith

/-- A rounded number is at most half a unit of its last place off. -/
theorem abs_rounded_sub_le (places : Nat) (x : ℚ) :
    |rounded places x - x| ≤ 1 / 2 / 10 ^ places := by
  have hpos : (0 : ℚ) < 10 ^ places := by positivity
  have hnear := abs_nearest_sub_le (x * 10 ^ places)
  have hscaled : rounded places x - x =
      (nearest (x * 10 ^ places) - x * 10 ^ places) / 10 ^ places := by
    unfold rounded
    field_simp
  rw [hscaled, abs_div, abs_of_pos hpos]
  exact div_le_div_of_nonneg_right hnear hpos.le

theorem rounded_mono (places : Nat) {x y : ℚ} (h : x ≤ y) :
    rounded places x ≤ rounded places y := by
  have hpos : (0 : ℚ) < 10 ^ places := by positivity
  refine div_le_div_of_nonneg_right ?_ hpos.le
  exact_mod_cast nearest_mono (mul_le_mul_of_nonneg_right h hpos.le)

/-- A number with no more places is left as it is. -/
theorem rounded_intCast_div (places : Nat) (n : ℤ) :
    rounded places (n / 10 ^ places) = n / 10 ^ places := by
  have hpos : (10 : ℚ) ^ places ≠ 0 := by positivity
  unfold rounded
  rw [div_mul_cancel₀ _ hpos, nearest_intCast]

end Rounding

end Theory
