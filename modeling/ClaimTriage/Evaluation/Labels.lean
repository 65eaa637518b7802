import ClaimTriage.Evaluation.Scoring
import ClaimTriage.Theory.Confusion

/-!
# The Labels of an Axis

What an axis is scored by is one label against the rest, for every label the cases
have: one pass over the answers raises two labels' counts for every wrong one, and
comes to the same as counting each label on its own (`labelCounts_eq`).

A name that is none of the labels is missed where it was answered, and is named
wrongly nowhere. That is all that what was missed can exceed what was named wrongly
by, apart from what was not answered at all (`labelCounts_oneVersusRest`).

## Main definitions

* `against`: The counts of one label against the rest.

## Theorems

* `labelCounts_eq`: An axis is counted by one label against the rest.
* `macroAverage_perm`: An average does not depend on the order of the answers.
* `labelCounts_oneVersusRest`: What the counts of an axis come to.
-/

namespace ClaimTriage

namespace Evaluation

open Theory Text

/-- What was found, named wrongly and missed of one label. -/
def against (pairs : List (Str × Option Str)) (label : Str) : Counts where
  truePositives := Confusion.found pairs label
  falsePositives := Confusion.wrong pairs label
  falseNegatives := Confusion.missed pairs label

section Labels

variable {pairs pairs' : List (Str × Option Str)}

theorem Counts.mk_add_mk (a b c d e f : Nat) :
    (⟨a, b, c⟩ + ⟨d, e, f⟩ : Counts) = ⟨a + d, b + e, c + f⟩ :=
  rfl

theorem Counts.zero_eq : (0 : Counts) = ⟨0, 0, 0⟩ :=
  rfl

theorem Counts.add_assoc (a b c : Counts) : a + b + c = a + (b + c) := by
  cases a
  cases b
  cases c
  simp only [mk_add_mk, Nat.add_assoc]

theorem Counts.zero_add (a : Counts) : 0 + a = a := by
  cases a
  simp only [zero_eq, mk_add_mk, Nat.zero_add]

/-- Counts of distinct labels, one of them raised. -/
theorem bump_map {labels : List Str} (c : Str → Counts) (name : Str) (by_ : Counts) :
    bump (labels.map fun label => (label, c label)) name by_ =
      labels.map fun label => (label, if label = name then c label + by_ else c label) := by
  unfold bump
  rw [List.map_map]
  refine List.map_congr_left fun label _ => ?_
  simp only [Function.comp_apply]
  split <;> rfl

theorem against_cons (p : Str × Option Str) (rest : List (Str × Option Str)) (label : Str) :
    against (p :: rest) label = against [p] label + against rest label := by
  unfold against Confusion.found Confusion.wrong Confusion.missed
  simp only [Counts.mk_add_mk, List.countP_cons, List.countP_nil, Nat.zero_add, Nat.add_comm]

/-- A right answer is found of its case's label. -/
theorem against_right (truth label : Str) :
    against [(truth, some truth)] label = if label = truth then ⟨1, 0, 0⟩ else 0 := by
  unfold against Confusion.found Confusion.wrong Confusion.missed
  simp only [List.countP_singleton, decide_eq_true_eq, Option.some.injEq, ne_eq, and_self]
  by_cases hlabel : label = truth
  · simp [hlabel]
  · simp [hlabel, Ne.symm hlabel, Counts.zero_eq]

/-- A wrong one is missed of it, and named wrongly of the label it names. -/
theorem against_wrong {truth : Str} {answered : Option Str} (h : answered ≠ some truth)
    (label : Str) :
    against [(truth, answered)] label =
      (if label = truth then ⟨0, 0, 1⟩ else 0) +
        if answered = some label then ⟨0, 1, 0⟩ else 0 := by
  unfold against Confusion.found Confusion.wrong Confusion.missed
  simp only [List.countP_singleton, decide_eq_true_eq]
  by_cases hlabel : label = truth
  · subst hlabel
    simp [h, Counts.zero_eq, Counts.mk_add_mk]
  · by_cases hnamed : answered = some label
    · simp [hlabel, Ne.symm hlabel, hnamed, Counts.zero_eq, Counts.mk_add_mk]
    · simp [hlabel, Ne.symm hlabel, hnamed, Counts.zero_eq, Counts.mk_add_mk]

/-- One answer raises each label's counts by what it counts for there. -/
theorem bump_answered (labels : List Str) (c : Str → Counts) (truth : Str)
    (answered : Option Str) :
    (if answered = some truth then
        bump (labels.map fun label => (label, c label)) truth ⟨1, 0, 0⟩
      else
        match answered with
        | none => bump (labels.map fun label => (label, c label)) truth ⟨0, 0, 1⟩
        | some name =>
            bump (bump (labels.map fun label => (label, c label)) truth ⟨0, 0, 1⟩) name ⟨0, 1, 0⟩) =
      labels.map fun label => (label, c label + against [(truth, answered)] label) := by
  by_cases hright : answered = some truth
  · rw [if_pos hright, bump_map]
    refine List.map_congr_left fun label _ => ?_
    rw [hright, against_right]
    split <;> rfl
  · rw [if_neg hright]
    cases answered with
    | none =>
        simp only [bump_map]
        refine List.map_congr_left fun label _ => ?_
        rw [against_wrong hright]
        split <;> rfl
    | some name =>
        -- The label the case has is another one than the label it was answered with.
        simp only [bump_map]
        refine List.map_congr_left fun label _ => ?_
        rw [against_wrong hright]
        simp only [Option.some.injEq, eq_comm (a := name)]
        by_cases htruth : label = truth
        · have hname : label ≠ name := by
            rintro rfl
            exact hright (congrArg some htruth)
          rw [if_pos htruth, if_neg hname, if_pos htruth, if_neg hname]
          rfl
        · rw [if_neg htruth, if_neg htruth, Counts.zero_add]
          split <;> rfl

/-- One pass over the answers, whatever labels it counts and wherever it starts. -/
theorem foldl_bump (pairs : List (Str × Option Str)) (labels : List Str) (c : Str → Counts) :
    pairs.foldl (fun counted (truth, answered) =>
      if answered = some truth then bump counted truth ⟨1, 0, 0⟩
      else
        let missed := bump counted truth ⟨0, 0, 1⟩
        match answered with
        | none => missed
        | some name => bump missed name ⟨0, 1, 0⟩) (labels.map fun label => (label, c label)) =
    labels.map fun label => (label, c label + against pairs label) := by
  induction pairs generalizing c with
  | nil => rfl
  | cons p pairs ih =>
      rcases p with ⟨truth, answered⟩
      rw [List.foldl_cons]
      refine (congrArg (List.foldl _ · pairs) (bump_answered labels c truth answered)).trans
        ((ih _).trans ?_)
      refine List.map_congr_left fun label _ => ?_
      rw [against_cons (truth, answered) pairs, Counts.add_assoc]

/-- One pass over the answers counts each label on its own. -/
theorem labelCounts_eq (pairs : List (Str × Option Str)) :
    labelCounts pairs =
      (Confusion.labels pairs).map fun label => (label, against pairs label) := by
  unfold labelCounts
  refine (foldl_bump pairs _ fun _ => 0).trans (List.map_congr_left fun label _ => ?_)
  rw [Counts.zero_add]

theorem keys_labelCounts : (labelCounts pairs).map Prod.fst = Confusion.labels pairs := by
  rw [labelCounts_eq, List.map_map]
  exact List.map_id _

/-- An average over the labels does not depend on the order of the answers. -/
theorem macroAverage_perm (metric : Counts → ℚ) (h : pairs.Perm pairs') :
    macroAverage exact (labelCounts pairs) metric =
      macroAverage exact (labelCounts pairs') metric := by
  have hagainst : against pairs = against pairs' := by
    funext label
    unfold against
    rw [Confusion.found_perm h, Confusion.wrong_perm h, Confusion.missed_perm h]
  have hcounted : (labelCounts pairs).Perm (labelCounts pairs') := by
    rw [labelCounts_eq, labelCounts_eq, hagainst]
    exact (Confusion.labels_perm h).map _
  have hnil : labelCounts pairs = [] ↔ labelCounts pairs' = [] := by
    rw [← List.length_eq_zero_iff, hcounted.length_eq, List.length_eq_zero_iff]
  unfold macroAverage
  simp only [hnil, hcounted.length_eq]
  have hsum : exact.sum ((labelCounts pairs).map fun e => metric e.2) =
      exact.sum ((labelCounts pairs').map fun e => metric e.2) := (hcounted.map _).sum_eq
  rw [hsum]

/-- An axis has the labels its cases have, each counted one against the rest. What is found
    and missed comes to the cases, and what is named wrongly to no more than what is missed,
    and to as much exactly if every miss names a label. The averages over the labels do not
    depend on the order of the answers. -/
theorem labelCounts_oneVersusRest (pairs : List (Str × Option Str)) :
    ((labelCounts pairs).map Prod.fst).Nodup ∧
    (∀ label, label ∈ (labelCounts pairs).map Prod.fst ↔
      ∃ answered, (label, answered) ∈ pairs) ∧
    (∀ e ∈ labelCounts pairs,
      e.2.truePositives = (pairs.countP fun p => p.1 = e.1 ∧ p.2 = some e.1) ∧
      e.2.falsePositives = (pairs.countP fun p => p.1 ≠ e.1 ∧ p.2 = some e.1) ∧
      e.2.falseNegatives = pairs.countP fun p => p.1 = e.1 ∧ p.2 ≠ some e.1) ∧
    ((labelCounts pairs).map fun e => e.2.truePositives + e.2.falseNegatives).sum =
      pairs.length ∧
    ((labelCounts pairs).map fun e => e.2.falsePositives).sum ≤
      ((labelCounts pairs).map fun e => e.2.falseNegatives).sum ∧
    (((labelCounts pairs).map fun e => e.2.falsePositives).sum =
        ((labelCounts pairs).map fun e => e.2.falseNegatives).sum ↔
      ∀ p ∈ pairs, p.2 ≠ some p.1 →
        ∃ label ∈ (labelCounts pairs).map Prod.fst, p.2 = some label) ∧
    ∀ pairs', pairs.Perm pairs' →
      macroAverage exact (labelCounts pairs) (Counts.precision exact) =
        macroAverage exact (labelCounts pairs') (Counts.precision exact) ∧
      macroAverage exact (labelCounts pairs) (Counts.recall exact) =
        macroAverage exact (labelCounts pairs') (Counts.recall exact) ∧
      macroAverage exact (labelCounts pairs) (Counts.f1 exact) =
        macroAverage exact (labelCounts pairs') (Counts.f1 exact) := by
  have hsum : ∀ f : Counts → Nat, ((labelCounts pairs).map fun e => f e.2).sum =
      ((Confusion.labels pairs).map fun label => f (against pairs label)).sum := by
    intro f
    rw [labelCounts_eq, List.map_map]
    rfl
  rw [keys_labelCounts, hsum Counts.falsePositives, hsum Counts.falseNegatives,
    hsum fun c => c.truePositives + c.falseNegatives]
  refine ⟨Confusion.nodup_labels, fun _ => Confusion.mem_labels, ?_, Confusion.sum_found_missed,
    Confusion.sum_wrong_le_iff.1, Confusion.sum_wrong_le_iff.2, fun pairs' h =>
      ⟨macroAverage_perm _ h, macroAverage_perm _ h, macroAverage_perm _ h⟩⟩
  intro e he
  rw [labelCounts_eq] at he
  rcases List.mem_map.mp he with ⟨label, _, rfl⟩
  exact ⟨rfl, rfl, rfl⟩

end Labels

end Evaluation

end ClaimTriage
