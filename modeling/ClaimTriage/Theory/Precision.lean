import Mathlib.Algebra.BigOperators.Field
import Mathlib.Algebra.BigOperators.Ring.Finset
import Mathlib.Algebra.Order.BigOperators.Ring.Finset
import Mathlib.Algebra.Order.BigOperators.Group.Finset
import Mathlib.Algebra.Order.Field.Rat
import Mathlib.Data.List.Count
import Mathlib.Data.Finset.Dedup
import Mathlib.Tactic.Positivity
import Mathlib.Tactic.FieldSimp
import Mathlib.Tactic.Linarith

/-!
# Average Precision

How high some elements of a linear order, the positives, stand among others: the
area under the curve of precision against recall.

Every value stands for a threshold. What is at least as high is taken for
positive; the precision is the share of it that is, and the recall that the
threshold adds is the share of the positives that are exactly as high. The area
is the sum of the precisions, each weighted by the recall it adds. Nothing in it
depends on more than how the elements compare.

## Main definitions

* `atLeast`: How many of a list are at least as high.
* `averagePrecision`: The area under the curve.

## Theorems

* `averagePrecision_perm`: It does not depend on the order of the lists.
* `averagePrecision_map`: Nor on more than how the elements compare.
* `averagePrecision_pos`, `averagePrecision_le_one`: It is from zero to one.
* `averagePrecision_eq_one_iff`: It is one exactly if all positives are above all
  others.
* `averagePrecision_of_forall_eq`: It is the share of the positives if all
  elements are equal.
-/

namespace Theory

namespace Precision

variable {α β : Type} [LinearOrder α] [LinearOrder β]

/-- How many of a list are at least as high as a threshold. -/
def atLeast (t : α) (l : List α) : Nat :=
  l.countP fun s => t ≤ s

/-- The recall a threshold adds. -/
def recallAt (positives : List α) (t : α) : ℚ :=
  positives.count t / positives.length

/-- The precision at a threshold. -/
def precisionAt (positives negatives : List α) (t : α) : ℚ :=
  atLeast t positives / atLeast t (positives ++ negatives)

/-- The sum over the values of the precision at each, weighted by the recall it adds. -/
def averagePrecision (positives negatives : List α) : ℚ :=
  ∑ t ∈ (positives ++ negatives).toFinset,
    recallAt positives t * precisionAt positives negatives t

theorem atLeast_append (t : α) (l l' : List α) :
    atLeast t (l ++ l') = atLeast t l + atLeast t l' :=
  List.countP_append

theorem atLeast_pos {t : α} {l : List α} (h : t ∈ l) : 0 < atLeast t l :=
  List.countP_pos_iff.mpr ⟨t, h, decide_eq_true le_rfl⟩

theorem atLeast_eq_zero {t : α} {l : List α} : atLeast t l = 0 ↔ ∀ s ∈ l, s < t := by
  unfold atLeast
  rw [List.countP_eq_zero]
  simp only [decide_eq_true_eq, not_le]

variable {positives negatives : List α}

/-- The order of the lists is nothing to it. -/
theorem averagePrecision_perm {positives' negatives' : List α} (hp : positives'.Perm positives)
    (hn : negatives'.Perm negatives) :
    averagePrecision positives' negatives' = averagePrecision positives negatives := by
  unfold averagePrecision
  refine Finset.sum_congr (List.toFinset_eq_of_perm _ _ (hp.append hn)) fun t _ => ?_
  unfold recallAt precisionAt atLeast
  rw [hp.count_eq, hp.length_eq, hp.countP_eq, (hp.append hn).countP_eq]

/-- What keeps how the elements compare keeps it. -/
theorem averagePrecision_map {f : α → β}
    (hf : StrictMonoOn f {s | s ∈ positives ++ negatives}) :
    averagePrecision (positives.map f) (negatives.map f) =
      averagePrecision positives negatives := by
  have hinj : Set.InjOn f ((positives ++ negatives).toFinset : Set α) := by
    intro s hs t ht heq
    rw [Finset.mem_coe, List.mem_toFinset] at hs ht
    exact hf.injOn hs ht heq
  have himage : (positives.map f ++ negatives.map f).toFinset =
      (positives ++ negatives).toFinset.image f := by
    ext t
    simp only [← List.map_append, List.mem_toFinset, List.mem_map, Finset.mem_image]
  unfold averagePrecision
  rw [himage, Finset.sum_image hinj]
  refine Finset.sum_congr rfl fun t ht => ?_
  rw [List.mem_toFinset] at ht
  have hleast : ∀ l : List α, (∀ s ∈ l, s ∈ positives ++ negatives) →
      atLeast (f t) (l.map f) = atLeast t l := by
    intro l hl
    unfold atLeast
    rw [List.countP_map]
    refine List.countP_congr fun s hs => ?_
    simp only [Function.comp_apply, decide_eq_true_eq, hf.le_iff_le ht (hl s hs)]
  have hcount : (positives.map f).count (f t) = positives.count t := by
    unfold List.count
    rw [List.countP_map]
    refine List.countP_congr fun s hs => ?_
    simp only [Function.comp_apply, beq_iff_eq]
    exact hf.injOn.eq_iff (List.mem_append_left _ hs) ht
  unfold recallAt precisionAt
  rw [hcount, List.length_map, ← List.map_append, hleast _ fun s hs => hs,
    hleast _ fun s hs => List.mem_append_left _ hs]

theorem recallAt_nonneg (t : α) : 0 ≤ recallAt positives t := by
  unfold recallAt
  positivity

theorem precisionAt_nonneg (t : α) : 0 ≤ precisionAt positives negatives t := by
  unfold precisionAt
  positivity

theorem precisionAt_le_one (t : α) : precisionAt positives negatives t ≤ 1 := by
  unfold precisionAt
  refine div_le_one_of_le₀ ?_ (Nat.cast_nonneg _)
  rw [atLeast_append]
  exact_mod_cast Nat.le_add_right _ _

/-- The recall all values add is the whole. -/
theorem sum_recallAt (h : positives ≠ []) :
    ∑ t ∈ (positives ++ negatives).toFinset, recallAt positives t = 1 := by
  have hlength : (positives.length : ℚ) ≠ 0 :=
    Nat.cast_ne_zero.mpr (List.length_pos_iff.mpr h).ne'
  have hcount : ∑ t ∈ (positives ++ negatives).toFinset, positives.count t = positives.length := by
    rw [← List.sum_toFinset_count_eq_length positives]
    refine (Finset.sum_subset ?_ ?_).symm
    · intro t ht
      rw [List.mem_toFinset] at ht ⊢
      exact List.mem_append_left _ ht
    · intro t _ ht
      rw [List.mem_toFinset] at ht
      exact List.count_eq_zero.mpr ht
  unfold recallAt
  rw [← Finset.sum_div, ← Nat.cast_sum, hcount, div_self hlength]

/-- Some positive is taken for one at its own threshold. -/
theorem averagePrecision_pos (h : positives ≠ []) : 0 < averagePrecision positives negatives := by
  rcases List.exists_mem_of_ne_nil _ h with ⟨t, ht⟩
  refine Finset.sum_pos' (fun s _ => mul_nonneg (recallAt_nonneg s) (precisionAt_nonneg s))
    ⟨t, List.mem_toFinset.mpr (List.mem_append_left _ ht), ?_⟩
  have hcount : 0 < positives.count t := List.count_pos_iff.mpr ht
  have hlength : 0 < positives.length := List.length_pos_iff.mpr h
  have hleast : 0 < atLeast t positives := atLeast_pos ht
  have hall : 0 < atLeast t (positives ++ negatives) := atLeast_pos (List.mem_append_left _ ht)
  unfold recallAt precisionAt
  positivity

/-- What is missing of the area, value by value. -/
theorem one_sub_averagePrecision (h : positives ≠ []) :
    1 - averagePrecision positives negatives = ∑ t ∈ (positives ++ negatives).toFinset,
      recallAt positives t * (1 - precisionAt positives negatives t) := by
  calc 1 - averagePrecision positives negatives
      = ∑ t ∈ (positives ++ negatives).toFinset, recallAt positives t -
          averagePrecision positives negatives := by rw [sum_recallAt h]
    _ = ∑ t ∈ (positives ++ negatives).toFinset,
          recallAt positives t * (1 - precisionAt positives negatives t) := by
        rw [averagePrecision, ← Finset.sum_sub_distrib]
        exact Finset.sum_congr rfl fun t _ => by ring

theorem averagePrecision_le_one (h : positives ≠ []) :
    averagePrecision positives negatives ≤ 1 := by
  rw [← sub_nonneg, one_sub_averagePrecision h]
  exact Finset.sum_nonneg fun t _ =>
    mul_nonneg (recallAt_nonneg t) (sub_nonneg.mpr (precisionAt_le_one t))

/-- At a positive's threshold the precision is one if no other is as high. -/
theorem precisionAt_eq_one_iff {t : α} (ht : t ∈ positives) :
    precisionAt positives negatives t = 1 ↔ ∀ n ∈ negatives, n < t := by
  have hall : (atLeast t (positives ++ negatives) : ℚ) ≠ 0 :=
    Nat.cast_ne_zero.mpr (atLeast_pos (List.mem_append_left _ ht)).ne'
  unfold precisionAt
  rw [div_eq_one_iff_eq hall, Nat.cast_inj, atLeast_append, ← atLeast_eq_zero]
  omega

/-- Nothing is missing of the area exactly if all positives are above all others. -/
theorem averagePrecision_eq_one_iff (h : positives ≠ []) :
    averagePrecision positives negatives = 1 ↔ ∀ p ∈ positives, ∀ n ∈ negatives, n < p := by
  rw [eq_comm, ← sub_eq_zero, one_sub_averagePrecision h,
    Finset.sum_eq_zero_iff_of_nonneg fun t _ =>
    mul_nonneg (recallAt_nonneg t) (sub_nonneg.mpr (precisionAt_le_one t))]
  have hlength : (positives.length : ℚ) ≠ 0 :=
    Nat.cast_ne_zero.mpr (List.length_pos_iff.mpr h).ne'
  constructor
  · intro hzero p hp
    -- A positive adds some recall, so the precision at it is one.
    have hcount : (positives.count p : ℚ) ≠ 0 :=
      Nat.cast_ne_zero.mpr (List.count_pos_iff.mpr hp).ne'
    have hrecall : recallAt positives p ≠ 0 := div_ne_zero hcount hlength
    have hterm := hzero p (List.mem_toFinset.mpr (List.mem_append_left _ hp))
    rw [mul_eq_zero, or_iff_right hrecall, sub_eq_zero] at hterm
    exact (precisionAt_eq_one_iff hp).mp hterm.symm
  · intro habove t _
    by_cases ht : t ∈ positives
    · rw [(precisionAt_eq_one_iff ht).mpr (habove t ht), sub_self, mul_zero]
    · rw [recallAt, List.count_eq_zero.mpr ht, Nat.cast_zero, zero_div, zero_mul]

/-- Where all elements are equal there is one threshold, and all are as high. -/
theorem averagePrecision_of_forall_eq (h : positives ≠ []) {t : α}
    (heq : ∀ s ∈ positives ++ negatives, s = t) :
    averagePrecision positives negatives =
      positives.length / (positives.length + negatives.length) := by
  have hvalues : (positives ++ negatives).toFinset = {t} := by
    rcases List.exists_mem_of_ne_nil _ h with ⟨p, hp⟩
    have ht : t ∈ positives ++ negatives :=
      heq p (List.mem_append_left _ hp) ▸ List.mem_append_left _ hp
    ext s
    rw [List.mem_toFinset, Finset.mem_singleton]
    exact ⟨heq s, fun hs => hs ▸ ht⟩
  have hleast : ∀ l : List α, (∀ s ∈ l, s = t) → atLeast t l = l.length := fun l hl =>
    List.countP_eq_length.mpr fun s hs => decide_eq_true (hl s hs).ge
  have hcount : positives.count t = positives.length :=
    List.count_eq_length.mpr fun s hs => (heq s (List.mem_append_left _ hs)).symm
  have hlength : (positives.length : ℚ) ≠ 0 :=
    Nat.cast_ne_zero.mpr (List.length_pos_iff.mpr h).ne'
  rw [averagePrecision, hvalues, Finset.sum_singleton, recallAt, precisionAt, hcount,
    div_self hlength, one_mul, hleast _ heq, hleast _ fun s hs => heq s (List.mem_append_left _ hs),
    List.length_append, Nat.cast_add]

end Precision

end Theory
