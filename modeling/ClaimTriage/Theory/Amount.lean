import ClaimTriage.Theory.Decimal
import ClaimTriage.Theory.Lines
import Mathlib.Algebra.Order.Field.Rat

/-!
# Amounts as Texts State Them

The decimal number a text states, as a reader of decimal literals takes it: the
blanks around it and the underscores in it are left out, a digit of any script
is the digit it is, and a number too far from the point to be kept is none. A
blank inside is no part of a number.

What is read does not depend on the case of the letters: `amount_eq` is that
two texts that are the same without blanks, once their letters are folded, state
the same amount where each states one.

## Main definitions

* `Script`: Which characters are digits, and what letters are folded to.
* `IsNumeral`: A text spells a number, without its sign.
* `Decimal.number`: The number a decimal is.
* `amount`: The number a text states.
* `folded`: A text without its letters' case.

## Theorems

* `facts_of_amount`: A text that states a number holds no blank inside.
* `amount_eq`: Texts that differ in blanks and in case state one amount.
* `compact_folded_spaced`: Folding leaves the blanks between words as they are.
-/

namespace Theory

open Text Numeral

theorem add_lt_of_capital (c : CodePoint) (h : 0x41 ≤ c.val ∧ c.val ≤ 0x5A) :
    c.val + 0x20 < 0x110000 := by
  omega

theorem sub_lt_of_small (c : CodePoint) (h : 0x61 ≤ c.val ∧ c.val ≤ 0x7A) :
    c.val - 0x20 < 0x110000 := by
  omega

/-- A lower case letter for a capital one. -/
def lower (c : CodePoint) : CodePoint :=
  if h : 0x41 ≤ c.val ∧ c.val ≤ 0x5A then ⟨c.val + 0x20, add_lt_of_capital c h⟩ else c

/-- A capital letter for a lower case one. -/
def upper (c : CodePoint) : CodePoint :=
  if h : 0x61 ≤ c.val ∧ c.val ≤ 0x7A then ⟨c.val - 0x20, sub_lt_of_small c h⟩ else c

/-- What the tables of the characters say: the digit a character stands for, and what its case
    is folded to. Letters outside these tables' first rows may fold to anything. -/
structure Script where
  decimal : CodePoint → Option (Fin 10)
  casefold : CodePoint → Str
  casefold_ascii : ∀ c : CodePoint, c.val < 0x80 → casefold c = [lower c]
  casefold_digit : ∀ c : CodePoint, 0x80 ≤ c.val → decimal c ≠ none → casefold c = [c]

/-- The number a decimal is, however it is spelled. -/
def Decimal.number (d : Decimal) : ℚ :=
  d.coefficient * 10 ^ d.exponent

/-- Of one number there is one spelling with an exponent. -/
theorem Decimal.eq_of_number {d e : Decimal} (h : d.number = e.number)
    (hexponent : d.exponent = e.exponent) : d = e := by
  have hpow : (10 : ℚ) ^ e.exponent ≠ 0 := zpow_ne_zero _ (by decide)
  simp only [number, hexponent] at h
  exact Decimal.ext (Nat.cast_injective (mul_right_cancel₀ hpow h)) hexponent

namespace Amount

def underscore : CodePoint := 0x5F

/-- A number's sign. -/
def IsSign (c : CodePoint) : Prop :=
  c = 0x2B ∨ c = 0x2D

instance (c : CodePoint) : Decidable (IsSign c) :=
  inferInstanceAs (Decidable (_ ∨ _))

/-- A text without the sign it may begin with. -/
def unsigned : Str → Str
  | [] => []
  | c :: rest => if IsSign c then rest else c :: rest

/-- The whole part, the places and the power a text is divided into. -/
def parts (s : Str) : Str × Str × Str :=
  let mantissa := s.takeWhile (· ≠ Decimal.exponentMark)
  let whole := mantissa.takeWhile (· ≠ Decimal.point)
  (whole, mantissa.drop (whole.length + 1), s.drop (mantissa.length + 1))

/-- A text spells a number: digits, which a point may divide, and after a mark the power of ten
    they are taken by. -/
def IsNumeral (s : Str) : Prop :=
  ((parts s).1 ++ (parts s).2.1 ≠ [] ∧ ∀ c ∈ (parts s).1 ++ (parts s).2.1, IsDigit c) ∧
    (Decimal.exponentMark ∈ s →
      unsigned (parts s).2.2 ≠ [] ∧ ∀ c ∈ unsigned (parts s).2.2, IsDigit c)

instance (s : Str) : Decidable (IsNumeral s) :=
  @instDecidableAnd _ _ (@instDecidableAnd _ _ _ (List.decidableBAll IsDigit _))
    (@instDecidableForall _ _ _ (@instDecidableAnd _ _ _ (List.decidableBAll IsDigit _)))

/-- The greatest power of ten a number's first digit may stand for. -/
def maxExponent : Int :=
  999999999999999999

/-- The least power of ten a number's last digit may stand for. -/
def minExponent : Int :=
  -1999999999999999997

/-- A number is not too far from the point to be kept. -/
def InReach (d : Decimal) : Prop :=
  d.exponent + (decimal d.coefficient).length - 1 ≤ maxExponent ∧ minExponent ≤ d.exponent

instance (d : Decimal) : Decidable (InReach d) :=
  inferInstanceAs (Decidable (_ ∧ _))

/-- The number a text spells, with its sign. -/
def valueOf (s : Str) : Option ℚ :=
  let d := Decimal.ofText (unsigned s)
  if IsNumeral (unsigned s) ∧ InReach d then
    some ((if s.head? = some 0x2D then -1 else 1) * (d.coefficient * 10 ^ d.exponent))
  else none

section Script

variable (u : Script)

/-- A character as the reader takes it: those of the first rows as they are, a blank as a space,
    and any other as the digit it stands for. -/
def plain (c : CodePoint) : Option CodePoint :=
  if 0 < c.val ∧ c.val < 0x80 then some (upper c)
  else if IsSpace c then some 0x20
  else (u.decimal c).map fun d => digit d

/-- The number a text states, if it states one. -/
def amount (s : Str) : Option ℚ := do
  let spelled ← ((strip s).filter (· ≠ underscore)).mapM (plain u)
  valueOf spelled

/-- A text without its letters' case. -/
def folded (s : Str) : Str :=
  s.flatMap u.casefold

end Script

/-- A character of a number. -/
def IsNumeric (c : CodePoint) : Prop :=
  IsDigit c ∨ IsSign c ∨ c = Decimal.point ∨ c = Decimal.exponentMark

instance (c : CodePoint) : Decidable (IsNumeric c) :=
  inferInstanceAs (Decidable (_ ∨ _))

/-- What a mark divides is before it, the mark, or after it. -/
theorem mem_divided (mark : CodePoint) {c : CodePoint} {s : Str} (h : c ∈ s) :
    c ∈ s.takeWhile (· ≠ mark) ∨ c = mark ∨
      (mark ∈ s ∧ c ∈ s.drop ((s.takeWhile (· ≠ mark)).length + 1)) := by
  induction s with
  | nil => exact absurd h List.not_mem_nil
  | cons d s ih =>
      by_cases hd : d = mark
      · have htaken : (d :: s).takeWhile (· ≠ mark) = [] :=
          List.takeWhile_cons_of_neg (by simp [hd])
        rw [htaken]
        rcases List.mem_cons.mp h with rfl | h
        · exact Or.inr (Or.inl hd)
        · exact Or.inr (Or.inr ⟨hd ▸ List.mem_cons_self, h⟩)
      · have htaken : (d :: s).takeWhile (· ≠ mark) = d :: s.takeWhile (· ≠ mark) :=
          List.takeWhile_cons_of_pos (by simp [hd])
        rw [htaken]
        rcases List.mem_cons.mp h with rfl | h
        · exact Or.inl List.mem_cons_self
        · exact (ih h).imp (List.mem_cons_of_mem _)
            (Or.imp id fun hafter => ⟨List.mem_cons_of_mem _ hafter.1, hafter.2⟩)

/-- A text is its sign and what follows it. -/
theorem mem_unsigned {c : CodePoint} {s : Str} (h : c ∈ s) : IsSign c ∨ c ∈ unsigned s := by
  cases s with
  | nil => exact absurd h List.not_mem_nil
  | cons d s =>
      by_cases hsign : IsSign d
      · rw [unsigned, if_pos hsign]
        rcases List.mem_cons.mp h with rfl | h
        · exact Or.inl hsign
        · exact Or.inr h
      · rw [unsigned, if_neg hsign]
        exact Or.inr h

/-- A text that spells a number holds nothing else. -/
theorem isNumeric_of_valueOf {s : Str} {q : ℚ} (h : valueOf s = some q) :
    ∀ c ∈ s, IsNumeric c := by
  have hnumeral : IsNumeral (unsigned s) := by
    by_contra hnot
    unfold valueOf at h
    rw [if_neg fun hboth => hnot hboth.1] at h
    cases h
  intro c hc
  -- A sign, a mantissa and perhaps a power, each of them of characters of its own.
  rcases mem_unsigned hc with hsign | hc
  · exact Or.inr (Or.inl hsign)
  rcases mem_divided Decimal.exponentMark hc with hmantissa | hmark | ⟨hmark, hpower⟩
  · rcases mem_divided Decimal.point hmantissa with hwhole | hpoint | ⟨_, hplaces⟩
    · exact Or.inl (hnumeral.1.2 c (List.mem_append_left _ hwhole))
    · exact Or.inr (Or.inr (Or.inl hpoint))
    · exact Or.inl (hnumeral.1.2 c (List.mem_append_right _ hplaces))
  · exact Or.inr (Or.inr (Or.inr hmark))
  · rcases mem_unsigned hpower with hsign | hdigits
    · exact Or.inr (Or.inl hsign)
    · exact Or.inl ((hnumeral.2 hmark).2 c hdigits)

/-! ### Blanks and case -/

/-- A character of the first rows in lower case, and any other as it is. -/
def low (c : CodePoint) : CodePoint :=
  if c.val < 0x80 then lower c else c

/-- In the first rows a blank is no part of a number, nor is an underscore, and case makes no
    difference. -/
theorem ascii_facts : ∀ c : Fin 0x80,
    let c : CodePoint := c.castLE (by decide)
    (IsNumeric (upper c) → ¬ IsSpace c ∧ lower c ≠ underscore) ∧ upper (lower c) = upper c ∧
      (lower c).val < 0x80 ∧ (0 < (lower c).val ↔ 0 < c.val) := by
  decide +kernel

section Script

variable {u : Script}

/-- A character of a number is no blank, and is folded to one that is read as it is. -/
theorem facts_of_plain {c k : CodePoint} (h : plain u c = some k) (hk : IsNumeric k) :
    ¬ IsSpace c ∧ u.casefold c = [low c] ∧ plain u (low c) = some k ∧ low c ≠ underscore := by
  unfold plain at h
  split at h
  · -- What is ASCII is read as it stands, in either case.
    rename_i hascii
    cases h
    rcases ascii_facts ⟨c.val, hascii.2⟩ with ⟨hnumeric, hupper, hrange⟩
    have hlow : low c = lower c := if_pos hascii.2
    refine ⟨(hnumeric hk).1, ?_, ?_, ?_⟩
    · rw [hlow]
      exact u.casefold_ascii c hascii.2
    · rw [hlow, plain, if_pos ⟨hrange.2.mpr hascii.1, hrange.1⟩]
      exact congrArg some hupper
    · rw [hlow]
      exact (hnumeric hk).2
  · -- A blank is read as one, and none is part of a number.
    split at h
    · cases h
      exact absurd hk (by decide)
    · rename_i hrows hspace
      -- What is left has a digit's value.
      have hdecimal : u.decimal c ≠ none := by
        intro hnone
        rw [hnone] at h
        cases h
      have hplain : plain u c = some k := by
        rw [plain, if_neg hrows, if_neg hspace, h]
      by_cases hzero : c.val < 0x80
      · -- Of the first rows there is only the first character left.
        have hc : c = 0 := by
          refine Fin.ext ?_
          change c.val = 0
          omega
        subst hc
        exact ⟨hspace, u.casefold_ascii 0 hzero, hplain, by decide⟩
      · -- Beyond the first rows nothing has a lower case of its own.
        have hlow : low c = c := if_neg hzero
        rw [hlow]
        refine ⟨hspace, u.casefold_digit c (Nat.le_of_not_lt hzero) hdecimal, hplain, ?_⟩
        rintro rfl
        exact hzero (by decide)

theorem exists_of_mem_mapM {α β : Type} {f : α → Option β} {l : List α} {m : List β}
    (h : l.mapM f = some m) : ∀ a ∈ l, ∃ b ∈ m, f a = some b := by
  induction l generalizing m with
  | nil => exact fun a ha => absurd ha List.not_mem_nil
  | cons a l ih =>
      rw [List.mapM_cons] at h
      rcases Option.bind_eq_some_iff.mp h with ⟨b, hb, h⟩
      rcases Option.bind_eq_some_iff.mp h with ⟨bs, hbs, h⟩
      cases h
      rw [List.forall_mem_cons]
      refine ⟨⟨b, List.mem_cons_self, hb⟩, fun c hc => ?_⟩
      rcases ih hbs c hc with ⟨d, hd, heq⟩
      exact ⟨d, List.mem_cons_of_mem b hd, heq⟩

/-- A list whose elements are read as others are is read as the list of those. -/
theorem mapM_map_eq {α β : Type} {f : α → Option β} {g : α → α} {l : List α}
    (hg : ∀ a ∈ l, f (g a) = f a) : (l.map g).mapM f = l.mapM f := by
  induction l with
  | nil => rfl
  | cons a l ih =>
      rw [List.forall_mem_cons] at hg
      rw [List.map_cons, List.mapM_cons, List.mapM_cons, hg.1, ih hg.2]

/-- A text that states a number holds no blank inside, and is folded character by character. -/
theorem facts_of_amount {s : Str} {q : ℚ} (h : amount u s = some q) :
    strip s = compact s ∧ ∀ c ∈ compact s, u.casefold c = [low c] ∧ ¬ IsSpace (low c) ∧
      (low c = underscore ↔ c = underscore) := by
  rcases Option.bind_eq_some_iff.mp h with ⟨w, hw, hq⟩
  have hnumeric := isNumeric_of_valueOf hq
  have hread : ∀ c ∈ strip s, ¬ IsSpace c ∧ u.casefold c = [low c] ∧ ¬ IsSpace (low c) ∧
      (low c = underscore ↔ c = underscore) := by
    intro c hc
    -- An underscore is left out before the rest is read.
    by_cases hunder : c = underscore
    · subst hunder
      have hlow : low underscore = underscore := by decide
      refine ⟨by decide, ?_, by decide, ?_⟩
      · rw [u.casefold_ascii underscore (by decide)]
        decide
      · rw [hlow]
    · -- Every other character is read as one of a number's.
      have hkept : c ∈ (strip s).filter (· ≠ underscore) :=
        List.mem_filter.mpr ⟨hc, decide_eq_true hunder⟩
      rcases exists_of_mem_mapM hw c hkept with ⟨k, hk, hplain⟩
      rcases facts_of_plain hplain (hnumeric k hk) with ⟨hspace, hfold, hlow, hne⟩
      refine ⟨hspace, hfold, ?_, ⟨fun heq => absurd heq hne, fun heq => absurd heq hunder⟩⟩
      exact (facts_of_plain hlow (hnumeric k hk)).1
  have hcompact : strip s = compact s := strip_eq_compact fun c hc => (hread c hc).1
  exact ⟨hcompact, fun c hc => (hread c (hcompact.symm ▸ hc)).2⟩

theorem folded_of_forall {s : Str} (h : ∀ c ∈ s, u.casefold c = [low c]) :
    folded u s = s.map low := by
  unfold folded
  induction s with
  | nil => rfl
  | cons c s ih =>
      rw [List.forall_mem_cons] at h
      rw [List.flatMap_cons, h.1, ih h.2, List.map_cons, List.singleton_append]

/-- What is read of a text that states a number is read of it without blanks and without case. -/
theorem amount_of_folded {s : Str} {q : ℚ} (h : amount u s = some q) :
    ((folded u (compact s)).filter (· ≠ underscore)).mapM (plain u) >>= valueOf = some q := by
  rcases facts_of_amount h with ⟨hstrip, hfacts⟩
  rcases Option.bind_eq_some_iff.mp h with ⟨w, hw, hq⟩
  rw [hstrip] at hw
  -- Lower case keeps underscores where they are.
  have hfilter : ((compact s).map low).filter (· ≠ underscore) =
      ((compact s).filter (· ≠ underscore)).map low := by
    rw [List.filter_map]
    congr 1
    refine List.filter_congr fun c hc => ?_
    simp only [Function.comp_apply, ne_eq, (hfacts c hc).2.2]
  have hread : (((compact s).filter (· ≠ underscore)).map low).mapM (plain u) = some w := by
    rw [mapM_map_eq, hw]
    intro c hc
    rcases exists_of_mem_mapM hw c hc with ⟨k, hk, hplain⟩
    rw [hplain]
    exact (facts_of_plain hplain (isNumeric_of_valueOf hq k hk)).2.2.1
  rw [folded_of_forall fun c hc => (hfacts c hc).1, hfilter, hread]
  exact hq

/-- Texts that are the same without blanks and without case state the same number, where each
    states one. -/
theorem amount_eq {s t : Str} {q r : ℚ} (h : folded u (compact s) = folded u (compact t))
    (hs : amount u s = some q) (ht : amount u t = some r) : q = r := by
  have hq := amount_of_folded hs
  have hr := amount_of_folded ht
  rw [h, hr] at hq
  exact (Option.some.inj hq).symm

/-- Where no character is folded to a blank, the blanks between words are folded as they are. -/
theorem compact_folded_spaced {s : Str}
    (h : ∀ c ∈ compact s, u.casefold c = [low c] ∧ ¬ IsSpace (low c)) :
    compact (folded u (spaced s)) = folded u (compact s) := by
  have hspace : ∀ c : CodePoint, c = 0x20 → u.casefold c = [low c] := by
    rintro c rfl
    rw [u.casefold_ascii 0x20 (by decide)]
    decide
  -- What is spaced is what is compact, and single blanks.
  have hchars : ∀ c ∈ spaced s, c = 0x20 ∨ c ∈ compact s := fun c hc => mem_spaced hc
  have hfold : ∀ c ∈ spaced s, u.casefold c = [low c] := fun c hc =>
    (hchars c hc).elim (hspace c) fun hc => (h c hc).1
  rw [folded_of_forall hfold, folded_of_forall fun c hc => (h c hc).1, ← compact_spaced s]
  unfold compact
  rw [List.filter_map]
  congr 1
  refine List.filter_congr fun c hc => ?_
  rcases hchars c hc with rfl | hc
  · decide
  · simp only [Function.comp_apply, not_isSpace_of_mem_compact hc, (h c hc).2]

end Script

end Amount

end Theory
