import ClaimTriage.Evaluation.Sets
import ClaimTriage.Theory.Amount

/-!
# When Values Agree

Two values agree as numbers where both are numbers, and as texts without case
and with their blanks run together where one is not. A number may be written
with spaces in it, but with no other blank, so a text may be no number and still
have the words of one: it agrees with that one as a text, and with no other
spelling of the number. This is where agreement is not passed on
(`equivalence_iff`), and where a blank makes a difference (`alike_iff`).

## Main definitions

* `Scalar.shown`: A value as a text.
* `number`, `textOf`: The two things a value is compared as.
* `compare`: An extracted value is the value the case states.
* `Agree`: Two texts agree.
* `Slips`: A text agrees with a number, and not with what is the same number.

## Theorems

* `compare_eq_true_iff`: Which values agree.
* `agree_trans_iff`: When agreement is passed on.
* `equivalence_iff`: When comparing is an equivalence.
* `alike_iff`: When texts that differ in case and blanks agree.
-/

namespace ClaimTriage

namespace Evaluation

open Theory Text Numeral

/-- A value as a text. An integer of too many digits is not made a text of. -/
def Scalar.shown : Scalar → Except Raised Str
  | .str s => .ok s
  | .int n => if n.natAbs < 10 ^ maxStrDigits then .ok (signed n) else .error .valueError
  | .float written => .ok written
  | .bool b => .ok (if b then Text.text "True" else Text.text "False")
  | .none => .ok (Text.text "None")

/-- The value is a flag. -/
def Scalar.IsBool : Scalar → Prop
  | .bool _ => True
  | .str _ | .int _ | .float _ | .none => False

instance (a : Scalar) : Decidable a.IsBool :=
  match a with
  | .bool _ => isTrue trivial
  | .str _ | .int _ | .float _ | .none => isFalse id

/-- A value is compared by its text, which is this one. -/
def Scalar.Written (a : Scalar) (s : Str) : Prop :=
  a ≠ .none ∧ ¬ a.IsBool ∧ a.shown = .ok s

section Compare

variable (u : Script)

/-- The number a text is when its spaces are left out. -/
def numberIn (s : Str) : Option ℚ :=
  Amount.amount u (s.filter (· ≠ 0x20))

/-- A text as it is compared: case and blanks folded away, everything else kept. -/
def comparable (s : Str) : Str :=
  Amount.folded u (spaced s)

/-- A value as a number, or none when it is not a finite number at all. -/
def number (value : Scalar) : Except Raised (Option ℚ) := do
  return numberIn u (← value.shown)

/-- A value as comparable text. -/
def textOf (value : Scalar) : Except Raised Str := do
  return comparable u (← value.shown)

/-- Whether an extracted value is the value the case states. -/
def compare (expected predicted : Scalar) : Except Raised Bool :=
  if expected = .none ∨ predicted = .none then
    .ok (expected = .none ∧ predicted = .none)
  else if expected.IsBool ∨ predicted.IsBool then
    .ok (expected.IsBool ∧ predicted.IsBool ∧ expected = predicted)
  else do
    let expectedNumber ← number u expected
    let predictedNumber ← number u predicted
    match expectedNumber, predictedNumber with
    | some m, some n => return m = n
    | _, _ => return (← textOf u expected) = (← textOf u predicted)

/-- Two texts agree: as numbers, or where one is none, as texts. -/
def Agree (s t : Str) : Prop :=
  match numberIn u s, numberIn u t with
  | some m, some n => m = n
  | _, _ => comparable u s = comparable u t

/-- The first text is no number, but has the words of the second, which is the same number as the
    third and does not have the words of that. -/
def Slips (s t r : Str) : Prop :=
  numberIn u s = none ∧ comparable u s = comparable u t ∧
    numberIn u t ≠ none ∧ numberIn u t = numberIn u r ∧ comparable u s ≠ comparable u r

end Compare

section Agreement

variable {u : Script} {s t r : Str}

theorem agree_iff : Agree u s t ↔
    (numberIn u s ≠ none ∧ numberIn u s = numberIn u t) ∨
      ((numberIn u s = none ∨ numberIn u t = none) ∧ comparable u s = comparable u t) := by
  unfold Agree
  cases numberIn u s with
  | none => simp only [ne_eq, not_true_eq_false, false_and, false_or, true_or, true_and]
  | some m =>
      cases numberIn u t with
      | none =>
          simp only [ne_eq, reduceCtorEq, not_false_eq_true, and_false, or_true, true_and, false_or]
      | some n =>
          simp only [ne_eq, reduceCtorEq, not_false_eq_true, true_and, Option.some.injEq, or_self,
            false_and, or_false]

theorem agree_refl (s : Str) : Agree u s s := by
  rw [agree_iff]
  by_cases h : numberIn u s = none
  · exact Or.inr ⟨Or.inl h, rfl⟩
  · exact Or.inl ⟨h, rfl⟩

theorem agree_symm (h : Agree u s t) : Agree u t s := by
  rw [agree_iff] at h ⊢
  rcases h with ⟨hne, heq⟩ | ⟨hnone, heq⟩
  · exact Or.inl ⟨heq ▸ hne, heq.symm⟩
  · exact Or.inr ⟨hnone.symm, heq.symm⟩

theorem compact_filter_space (s : Str) : compact (s.filter (· ≠ 0x20)) = compact s := by
  have hspace : ∀ c : CodePoint, c = 0x20 → IsSpace c := by
    rintro c rfl
    decide
  unfold compact
  rw [List.filter_filter]
  refine List.filter_congr fun c _ => ?_
  by_cases hc : c = 0x20
  · simp [hspace c hc]
  · simp [hc]

/-- Texts that are the same without blanks and without case are the same number, where both are
    one. -/
theorem numberIn_eq_of_compact (hs : numberIn u s ≠ none) (ht : numberIn u t ≠ none)
    (h : Amount.folded u (compact s) = Amount.folded u (compact t)) :
    numberIn u s = numberIn u t := by
  rcases Option.ne_none_iff_exists'.mp hs with ⟨m, hm⟩
  rcases Option.ne_none_iff_exists'.mp ht with ⟨n, hn⟩
  rw [hm, hn]
  refine congrArg some (Amount.amount_eq ?_ hm hn)
  rw [compact_filter_space, compact_filter_space, h]

theorem compact_comparable (hs : numberIn u s ≠ none) :
    compact (comparable u s) = Amount.folded u (compact s) := by
  rcases Option.ne_none_iff_exists'.mp hs with ⟨m, hm⟩
  refine Amount.compact_folded_spaced fun c hc => ?_
  rw [← compact_filter_space] at hc
  have hfacts := (Amount.facts_of_amount hm).2 c hc
  exact ⟨hfacts.1, hfacts.2.1⟩

/-- Texts of the same words that are numbers are the same number. -/
theorem numberIn_eq_of_comparable (hs : numberIn u s ≠ none) (ht : numberIn u t ≠ none)
    (h : comparable u s = comparable u t) : numberIn u s = numberIn u t := by
  refine numberIn_eq_of_compact hs ht ?_
  rw [← compact_comparable hs, ← compact_comparable ht, h]

/-- Agreement is passed on, but where a text slips from a number to its words. -/
theorem agree_trans_iff :
    (Agree u s t → Agree u t r → Agree u s r) ↔ ¬ (Slips u s t r ∨ Slips u r t s) := by
  have hsr := numberIn_eq_of_comparable (u := u) (s := s) (t := r)
  rw [agree_iff, agree_iff, agree_iff]
  unfold Slips
  constructor
  · rintro htrans (⟨hs, hst, ht, htr, hne⟩ | ⟨hr, hrt, ht, hts, hne⟩)
    · -- The first is no number, and the last is one that the second is written as.
      have h := htrans (Or.inr ⟨Or.inl hs, hst⟩) (Or.inl ⟨ht, htr⟩)
      rcases h with ⟨h, _⟩ | ⟨_, h⟩
      · exact h hs
      · exact hne h
    · have h := htrans (Or.inl ⟨hts ▸ ht, hts.symm⟩) (Or.inr ⟨Or.inr hr, hrt.symm⟩)
      rcases h with ⟨_, h⟩ | ⟨_, h⟩
      · exact ht (hts.trans (h.trans hr))
      · exact hne h.symm
  · intro hslip hst htr
    rcases hst with ⟨hs, hst⟩ | ⟨hnone, hst⟩
    · -- All three are numbers, or two of them are and the third is written as one.
      rcases htr with ⟨ht, htr⟩ | ⟨hnone, htr⟩
      · exact Or.inl ⟨hs, hst.trans htr⟩
      · -- The last is the one that is no number.
        have hr : numberIn u r = none := hnone.resolve_left (hst ▸ hs)
        refine Or.inr ⟨Or.inr hr, ?_⟩
        by_contra hne
        exact hslip (Or.inr ⟨hr, htr.symm, hst ▸ hs, hst.symm, fun h => hne h.symm⟩)
    · rcases htr with ⟨ht, htr⟩ | ⟨hnone', htr⟩
      · have hs : numberIn u s = none := hnone.resolve_right ht
        refine Or.inr ⟨Or.inl hs, ?_⟩
        by_contra hne
        exact hslip (Or.inl ⟨hs, hst, ht, htr, hne⟩)
      · -- Two that are written alike are one number, where both are numbers.
        by_cases hboth : numberIn u s ≠ none ∧ numberIn u r ≠ none
        · exact Or.inl ⟨hboth.1, hsr hboth.1 hboth.2 (hst.trans htr)⟩
        · refine Or.inr ⟨?_, hst.trans htr⟩
          by_contra hnot
          exact hboth (not_or.mp hnot)

end Agreement

/-! ### Comparing -/

section Comparing

variable {u : Script} {a b c : Scalar}

/-- Values compared by their texts agree if these do. -/
theorem compare_of_written {s t : Str} (ha : a.Written s) (hb : b.Written t) :
    compare u a b = .ok true ↔ Agree u s t := by
  rcases ha with ⟨hanone, habool, hashown⟩
  rcases hb with ⟨hbnone, hbbool, hbshown⟩
  unfold compare number textOf Agree
  rw [if_neg (not_or.mpr ⟨hanone, hbnone⟩), if_neg (not_or.mpr ⟨habool, hbbool⟩), hashown, hbshown]
  change (match numberIn u s, numberIn u t with
    | some m, some n => (.ok (decide (m = n)) : Except Raised Bool)
    | _, _ => .ok (decide (comparable u s = comparable u t))) = .ok true ↔ _
  cases numberIn u s with
  | none => simp only [Except.ok.injEq, decide_eq_true_eq]
  | some m =>
      cases numberIn u t with
      | none => simp only [Except.ok.injEq, decide_eq_true_eq]
      | some n => simp only [Except.ok.injEq, decide_eq_true_eq]

/-- Values agree that are both none, the same flag, or texts that agree. -/
theorem compare_eq_true_iff :
    compare u a b = .ok true ↔
      (a = .none ∧ b = .none) ∨ (a.IsBool ∧ a = b) ∨
        ∃ s t, a.Written s ∧ b.Written t ∧ Agree u s t := by
  by_cases hnone : a = .none ∨ b = .none
  · -- A value that is missing is equal to a missing one only.
    have hwritten : ¬ ∃ s t, a.Written s ∧ b.Written t ∧ Agree u s t := by
      rintro ⟨s, t, ha, hb, _⟩
      exact hnone.elim ha.1 hb.1
    have hbool : ¬ (a.IsBool ∧ a = b) := by
      rintro ⟨h, rfl⟩
      rcases hnone with rfl | rfl <;> exact h
    unfold compare
    rw [if_pos hnone, Except.ok.injEq, decide_eq_true_eq]
    simp only [hwritten, hbool, or_false]
  · by_cases hbool : a.IsBool ∨ b.IsBool
    · -- A truth value is equal to itself only.
      have hwritten : ¬ ∃ s t, a.Written s ∧ b.Written t ∧ Agree u s t := by
        rintro ⟨s, t, ha, hb, _⟩
        exact hbool.elim ha.2.1 hb.2.1
      unfold compare
      rw [if_neg hnone, if_pos hbool, Except.ok.injEq, decide_eq_true_eq]
      constructor
      · rintro ⟨ha, _, heq⟩
        exact Or.inr (Or.inl ⟨ha, heq⟩)
      · rintro (⟨ha, _⟩ | ⟨ha, heq⟩ | hno)
        · exact absurd (Or.inl ha) hnone
        · exact ⟨ha, heq ▸ ha, heq⟩
        · exact absurd hno hwritten
    · have hleft : ¬ (a = .none ∧ b = .none) := fun h => hnone (Or.inl h.1)
      have hflag : ¬ (a.IsBool ∧ a = b) := fun h => hbool (Or.inl h.1)
      rw [not_or] at hnone hbool
      simp only [hleft, hflag, false_or]
      constructor
      · intro h
        -- Both texts were taken: a value that has none ends the comparison.
        cases ha : a.shown with
        | error e =>
            unfold compare number at h
            rw [if_neg (not_or.mpr hnone), if_neg (not_or.mpr hbool), ha] at h
            cases h
        | ok s =>
            cases hb : b.shown with
            | error e =>
                unfold compare number at h
                rw [if_neg (not_or.mpr hnone), if_neg (not_or.mpr hbool), ha, hb] at h
                cases h
            | ok t =>
                have hs : a.Written s := ⟨hnone.1, hbool.1, ha⟩
                have ht : b.Written t := ⟨hnone.2, hbool.2, hb⟩
                exact ⟨s, t, hs, ht, (compare_of_written hs ht).mp h⟩
      · rintro ⟨s, t, hs, ht, hagree⟩
        exact (compare_of_written hs ht).mpr hagree

/-- A value that has a text agrees with itself, and no other does. -/
theorem compare_self_iff : compare u a a = .ok true ↔ ∃ s, a.shown = .ok s := by
  rw [compare_eq_true_iff]
  constructor
  · -- Neither a missing value nor a truth value is taken for a text.
    rintro (⟨rfl, _⟩ | ⟨hbool, _⟩ | ⟨s, _, hs, _, _⟩)
    · exact ⟨_, rfl⟩
    · cases a with
      | bool b => exact ⟨_, rfl⟩
      | _ => exact hbool.elim
    · exact ⟨s, hs.2.2⟩
  · rintro ⟨s, hs⟩
    by_cases hnone : a = .none
    · exact Or.inl ⟨hnone, hnone⟩
    · by_cases hbool : a.IsBool
      · exact Or.inr (Or.inl ⟨hbool, rfl⟩)
      · exact Or.inr (Or.inr ⟨s, s, ⟨hnone, hbool, hs⟩, ⟨hnone, hbool, hs⟩, agree_refl s⟩)

theorem compare_symm (h : compare u a b = .ok true) : compare u b a = .ok true := by
  rw [compare_eq_true_iff] at h ⊢
  rcases h with ⟨ha, hb⟩ | ⟨hbool, rfl⟩ | ⟨s, t, hs, ht, hagree⟩
  · exact Or.inl ⟨hb, ha⟩
  · exact Or.inr (Or.inl ⟨hbool, rfl⟩)
  · exact Or.inr (Or.inr ⟨t, s, ht, hs, agree_symm hagree⟩)

/-- Agreement with a value that is none or a flag is being that value. -/
theorem eq_of_compare (h : compare u a b = .ok true) :
    a = b ∨ ∃ s t, a.Written s ∧ b.Written t ∧ Agree u s t := by
  rcases compare_eq_true_iff.mp h with ⟨ha, hb⟩ | ⟨_, heq⟩ | hwritten
  · exact Or.inl (ha.trans hb.symm)
  · exact Or.inl heq
  · exact Or.inr hwritten

theorem Scalar.Written.of_str (s : Str) : (Scalar.str s).Written s :=
  ⟨nofun, id, rfl⟩

theorem Scalar.Written.unique {s t : Str} (hs : a.Written s) (ht : a.Written t) : s = t :=
  Except.ok.inj (hs.2.2.symm.trans ht.2.2)

/-- Comparing is an equivalence exactly where a value has a text, and where none slips from a
    number to its words. -/
theorem equivalence_iff (u : Script) (a b c : Scalar) :
    (compare u a a = .ok true ∧ (compare u a b = .ok true → compare u b a = .ok true) ∧
      (compare u a b = .ok true → compare u b c = .ok true → compare u a c = .ok true)) ↔
      (∃ s, a.shown = .ok s) ∧
        ∀ s t r, a.Written s → b.Written t → c.Written r →
          ¬ (Slips u s t r ∨ Slips u r t s) := by
  rw [compare_self_iff]
  refine and_congr_right fun _ => ?_
  constructor
  · rintro ⟨_, htrans⟩ s t r hs ht hr
    rw [compare_of_written hs ht, compare_of_written ht hr, compare_of_written hs hr,
      agree_trans_iff] at htrans
    exact htrans
  · intro hslip
    refine ⟨compare_symm, fun hab hbc => ?_⟩
    rcases eq_of_compare hab with rfl | ⟨s, t, hs, ht, hst⟩
    · -- Two that are equal are one value, or are both written.
      exact hbc
    · rcases eq_of_compare hbc with rfl | ⟨t', r, ht', hr, htr⟩
      · exact hab
      · obtain rfl := ht.unique ht'
        rw [compare_of_written hs hr]
        exact agree_trans_iff.mpr (hslip s t r hs ht hr) hst htr

/-- The first rows only. -/
def firstRows : Script where
  decimal := fun _ => none
  casefold := fun c => [if c.val < 0x80 then lower c else c]
  casefold_ascii := fun c hc => by rw [if_pos hc]
  casefold_digit := fun _ _ hdigit => absurd rfl hdigit

/-- A number with a tab in it has the words of one with a space, and is not the number. -/
theorem not_equivalence_tab :
    compare firstRows (.str [0x31, 0x09, 0x32]) (.str (text "1 2")) = .ok true ∧
      compare firstRows (.str (text "1 2")) (.int 12) = .ok true ∧
      compare firstRows (.str [0x31, 0x09, 0x32]) (.int 12) = .ok false := by
  decide +kernel

/-! ### Case and blanks -/

/-- Texts that are the same without blanks and without case agree exactly if both are numbers or
    both have the same words. -/
theorem alike_iff (u : Script) (s t : Str)
    (h : Amount.folded u (compact s) = Amount.folded u (compact t)) :
    compare u (.str s) (.str t) = .ok true ↔
      (numberIn u s ≠ none ∧ numberIn u t ≠ none) ∨ comparable u s = comparable u t := by
  rw [compare_of_written (.of_str s) (.of_str t), agree_iff]
  constructor
  · rintro (⟨hs, hst⟩ | ⟨_, hst⟩)
    · exact Or.inl ⟨hs, hst ▸ hs⟩
    · exact Or.inr hst
  · -- Two numbers that are alike but for blanks and case are one number.
    rintro (⟨hs, ht⟩ | hst)
    · exact Or.inl ⟨hs, numberIn_eq_of_compact hs ht h⟩
    · by_cases hboth : numberIn u s ≠ none ∧ numberIn u t ≠ none
      · exact Or.inl ⟨hboth.1, numberIn_eq_of_comparable hboth.1 hboth.2 hst⟩
      · refine Or.inr ⟨?_, hst⟩
        by_contra hnot
        exact hboth (not_or.mp hnot)

/-- A number written with a space in it, and in capitals, agrees with the one written without. -/
theorem alike_space :
    Amount.folded firstRows (compact (text "1 84E1")) =
        Amount.folded firstRows (compact (text "184e1")) ∧
      compare firstRows (.str (text "1 84E1")) (.str (text "184e1")) = .ok true :=
  ⟨by decide +kernel, (alike_iff firstRows (text "1 84E1") (text "184e1")
    (by decide +kernel)).mpr (Or.inl (by decide +kernel))⟩

/-- An amount written with a comma, and with a line break in it, does not. -/
theorem not_alike_break :
    Amount.folded firstRows (compact (text "1\n840,50")) =
        Amount.folded firstRows (compact (text "1840,50")) ∧
      compare firstRows (.str (text "1\n840,50")) (.str (text "1840,50")) = .ok false := by
  decide +kernel

end Comparing

end Evaluation

end ClaimTriage
