import Mathlib.Algebra.BigOperators.Group.List.Basic
import Mathlib.Algebra.Order.BigOperators.Group.List
import Mathlib.Algebra.Ring.Nat
import Mathlib.Data.List.Count
import Mathlib.Data.List.Dedup
import Mathlib.Data.List.Nodup

/-!
# One Label Against the Rest

Pairs of a truth and what was answered, if anything was, counted for every label:
how often it was found, named wrongly, and missed. The labels are those the truths
are of, so an answer may name one that is none of them.

Every pair is of one label, and is found or missed there. So what is found and
missed comes to all of the pairs, and what is named wrongly to those of the misses
that name a label. None of it depends on the order of the pairs.

## Main definitions

* `labels`: The labels the truths are of, each once.
* `found`, `wrong`, `missed`: The counts of one label against the rest.

## Theorems

* `sum_countP_of_nodup`: Counts under distinct keys come to a count of all of them.
* `sum_found_missed`: What is found and missed comes to the pairs.
* `sum_wrong_le_iff`: What is named wrongly comes to no more than what is missed.
-/

namespace Theory

namespace Confusion

theorem sum_map_ite {β : Type*} (p : β → Bool) (l : List β) :
    (l.map fun b => if p b then 1 else 0).sum = l.countP p := by
  induction l with
  | nil => rfl
  | cons b l ih =>
      rw [List.map_cons, List.sum_cons, ih, List.countP_cons, Nat.add_comm]

/-- What implies something else is counted no more often, and as often exactly if the other
    implies it where both are counted. -/
theorem countP_le_iff {β : Type*} {p q : β → Bool} {l : List β} (h : ∀ b, p b → q b) :
    l.countP p ≤ l.countP q ∧ (l.countP p = l.countP q ↔ ∀ b ∈ l, q b → p b) := by
  have hsplit := List.countP_eq_countP_filter_add l q p
  have hboth : (l.filter p).countP q = l.countP p := by
    rw [List.countP_filter]
    refine List.countP_congr fun b _ => ?_
    rw [Bool.and_eq_true]
    exact ⟨And.right, fun hp => ⟨h b hp, hp⟩⟩
  have hrest : (l.filter fun b => !p b).countP q = 0 ↔ ∀ b ∈ l, q b → p b := by
    simp only [List.countP_eq_zero, List.mem_filter, Bool.not_eq_true', and_imp]
    refine forall₂_congr fun b _ => ?_
    cases p b <;> simp
  rw [hboth] at hsplit
  refine ⟨by omega, ?_⟩
  rw [← hrest]
  omega

/-- Counts under distinct keys come to the count of what has one of the keys. -/
theorem sum_countP_of_nodup {β κ : Type*} [DecidableEq κ] {keys : List κ} (h : keys.Nodup)
    (key : β → Option κ) (l : List β) :
    (keys.map fun k => l.countP fun b => key b = some k).sum =
      l.countP fun b => (key b).any fun k => k ∈ keys := by
  induction l with
  | nil =>
      simp only [List.countP_nil, List.map_const', List.sum_replicate_nat, Nat.mul_zero]
  | cons b l ih =>
      have hone : (keys.map fun k => if key b = some k then 1 else 0).sum =
          if (key b).any (fun k => k ∈ keys) then 1 else 0 := by
        cases hkey : key b with
        | none => simp only [reduceCtorEq, if_false, List.map_const', List.sum_replicate_nat,
            Nat.mul_zero, Option.any_none, Bool.false_eq_true]
        | some k =>
            -- The element is counted under its own key, which is there once or not at all.
            have hcount : (keys.map fun k' => if k = k' then 1 else 0).sum = keys.count k := by
              rw [List.count, ← sum_map_ite]
              simp only [beq_iff_eq, eq_comm (a := k)]
            simp only [Option.some.injEq, hcount, h.count, Option.any_some, decide_eq_true_eq]
      simp only [List.countP_cons, decide_eq_true_eq, List.sum_map_add, ih, hone]

section Counts

variable {α : Type*} [DecidableEq α]

/-- The labels the truths are of, each once. -/
def labels (pairs : List (α × Option α)) : List α :=
  (pairs.map Prod.fst).dedup

/-- How many pairs are of the label and name it. -/
def found (pairs : List (α × Option α)) (label : α) : Nat :=
  pairs.countP fun p => p.1 = label ∧ p.2 = some label

/-- How many pairs name the label and are of another. -/
def wrong (pairs : List (α × Option α)) (label : α) : Nat :=
  pairs.countP fun p => p.1 ≠ label ∧ p.2 = some label

/-- How many pairs are of the label and do not name it. -/
def missed (pairs : List (α × Option α)) (label : α) : Nat :=
  pairs.countP fun p => p.1 = label ∧ p.2 ≠ some label

variable {pairs pairs' : List (α × Option α)}

theorem mem_labels {label : α} : label ∈ labels pairs ↔ ∃ answered, (label, answered) ∈ pairs := by
  unfold labels
  rw [List.mem_dedup, List.mem_map]
  constructor
  · rintro ⟨⟨_, answered⟩, hmem, rfl⟩
    exact ⟨answered, hmem⟩
  · rintro ⟨answered, hmem⟩
    exact ⟨_, hmem, rfl⟩

theorem nodup_labels : (labels pairs).Nodup :=
  List.nodup_dedup _

/-- What is found of a label and what is missed of it are the pairs of it. -/
theorem found_add_missed (label : α) :
    found pairs label + missed pairs label = pairs.countP fun p => p.1 = label := by
  unfold found missed
  rw [List.countP_eq_countP_filter_add pairs (fun p => p.1 = label) (fun p => p.2 = some label)]
  simp only [List.countP_filter, Bool.decide_and, ne_eq, decide_not]

/-- What is found and missed of all labels comes to the pairs. -/
theorem sum_found_missed :
    ((labels pairs).map fun label => found pairs label + missed pairs label).sum =
      pairs.length := by
  have hkeys := sum_countP_of_nodup (@nodup_labels _ _ pairs) (fun p => some p.1) pairs
  simp only [Option.some.injEq] at hkeys
  simp only [found_add_missed, hkeys]
  rw [List.countP_eq_length]
  rintro ⟨truth, answered⟩ hmem
  simpa using mem_labels.mpr ⟨answered, hmem⟩

/-- What is missed of all labels are the pairs that do not name their own. -/
theorem sum_missed :
    ((labels pairs).map (missed pairs)).sum = pairs.countP fun p => p.2 ≠ some p.1 := by
  have hkeys := sum_countP_of_nodup (@nodup_labels _ _ pairs)
    (fun p => if p.2 = some p.1 then none else some p.1) pairs
  have hmissed : missed pairs = fun label =>
      pairs.countP fun p => (if p.2 = some p.1 then none else some p.1) = some label := by
    funext label
    refine List.countP_congr fun p _ => ?_
    simp only [decide_eq_true_eq]
    split
    · rename_i hright
      refine ⟨?_, nofun⟩
      rintro ⟨rfl, hnot⟩
      exact absurd hright hnot
    · rename_i hnot
      rw [Option.some.injEq]
      refine ⟨And.left, ?_⟩
      rintro rfl
      exact ⟨rfl, hnot⟩
  rw [hmissed, hkeys]
  refine List.countP_congr fun p hp => ?_
  have hlabel : p.1 ∈ labels pairs := mem_labels.mpr ⟨p.2, hp⟩
  by_cases hright : p.2 = some p.1 <;> simp [hright, hlabel]

/-- What is named wrongly of all labels are the pairs that name another label. -/
theorem sum_wrong :
    ((labels pairs).map (wrong pairs)).sum =
      pairs.countP fun p => p.2 ≠ some p.1 ∧ ∃ label ∈ labels pairs, p.2 = some label := by
  have hkeys := sum_countP_of_nodup (@nodup_labels _ _ pairs)
    (fun p => if p.2 = some p.1 then none else p.2) pairs
  have hwrong : wrong pairs = fun label =>
      pairs.countP fun p => (if p.2 = some p.1 then none else p.2) = some label := by
    funext label
    refine List.countP_congr fun p _ => ?_
    simp only [decide_eq_true_eq]
    split
    · rename_i hright
      refine ⟨?_, nofun⟩
      rintro ⟨hnot, hnamed⟩
      exact absurd (Option.some.inj (hright.symm.trans hnamed)) hnot
    · rename_i hnot
      refine ⟨And.right, fun hnamed => ⟨?_, hnamed⟩⟩
      rintro rfl
      exact hnot hnamed
  rw [hwrong, hkeys]
  refine List.countP_congr fun p _ => ?_
  by_cases hright : p.2 = some p.1
  · simp only [hright, if_true, Option.any_none, ne_eq, not_true_eq_false, false_and,
      Bool.false_eq_true, decide_eq_true_eq]
  · simp only [hright, if_false, ne_eq, not_false_eq_true, true_and, decide_eq_true_eq]
    cases p.2 with
    | none => simp
    | some named => simp

/-- What is named wrongly comes to no more than what is missed, and to as much exactly if
    every miss names a label. -/
theorem sum_wrong_le_iff :
    ((labels pairs).map (wrong pairs)).sum ≤ ((labels pairs).map (missed pairs)).sum ∧
      (((labels pairs).map (wrong pairs)).sum = ((labels pairs).map (missed pairs)).sum ↔
        ∀ p ∈ pairs, p.2 ≠ some p.1 → ∃ label ∈ labels pairs, p.2 = some label) := by
  rw [sum_wrong, sum_missed]
  have hiff := countP_le_iff (l := pairs)
    (p := fun p => p.2 ≠ some p.1 ∧ ∃ label ∈ labels pairs, p.2 = some label)
    (q := fun p => p.2 ≠ some p.1)
    fun p hp => decide_eq_true (of_decide_eq_true hp).1
  refine ⟨hiff.1, hiff.2.trans (forall₂_congr fun p _ => ?_)⟩
  simp only [decide_eq_true_eq]
  exact ⟨fun h hmiss => (h hmiss).2, fun h hmiss => ⟨hmiss, h hmiss⟩⟩

/-! ### Order -/

theorem labels_perm (h : pairs.Perm pairs') : (labels pairs).Perm (labels pairs') :=
  (h.map Prod.fst).dedup

theorem found_perm (h : pairs.Perm pairs') : found pairs = found pairs' :=
  funext fun _ => h.countP_eq _

theorem wrong_perm (h : pairs.Perm pairs') : wrong pairs = wrong pairs' :=
  funext fun _ => h.countP_eq _

theorem missed_perm (h : pairs.Perm pairs') : missed pairs = missed pairs' :=
  funext fun _ => h.countP_eq _

end Counts

end Confusion

end Theory
