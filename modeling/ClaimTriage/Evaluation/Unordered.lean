import ClaimTriage.Evaluation.Correction
import ClaimTriage.Evaluation.Curve
import ClaimTriage.Evaluation.Labels
import ClaimTriage.Theory.Except

/-!
# Measured in Any Order

What is measured does not depend on the order of a set's cases, nor on that of the
answers.

The answers are looked up by case, and no case is answered twice. The counts of a
field are added up over the cases, and so are the ranks and the citations; the names
of the fields are sorted before they are measured. An axis is counted by label, and
the scores are ranked.

The order could tell in one place. Where a score is not a number the curve is never
read to its end, but whether its reading stops at the first round or goes on forever
depends on which score comes first. No answer has such a score.

## Main definitions

* `GoldenSet.Reordered`, `Sets.Reordered`: The same cases, in another order.
* `AnswersReordered`, `Answers.Reordered`: The same answers, in another order.

## Theorems

* `perField_perm`: Fields are counted in any order of the cases.
* `measureExtraction_reordered`, `measureRetrieval_reordered`,
  `measureClassification_reordered`: What one capability is measured as.
* `measure_reordered`: And all three.
-/

namespace ClaimTriage

namespace Evaluation

open Theory Text

/-- The same set of a capability, its cases in another order. -/
structure GoldenSet.Reordered {c : Capability} {α : Type} (golden golden' : GoldenSet c α) :
    Prop where
  version : golden'.version = golden.version
  cases : golden.cases.Perm golden'.cases

/-- The same three sets, their cases in another order. -/
structure Sets.Reordered (sets sets' : Sets) : Prop where
  extraction : sets.extraction.Reordered sets'.extraction
  retrieval : sets.retrieval.Reordered sets'.retrieval
  classification : sets.classification.Reordered sets'.classification

/-- The same answers, none of them to one case twice, in another order. -/
def AnswersReordered {α : Type} (answers answers' : List (Str × α)) : Prop :=
  answers.Perm answers' ∧ (answers.map Prod.fst).Nodup

/-- The same answers of a run, in another order. -/
structure Answers.Reordered (answers answers' : Answers) : Prop where
  extraction : Option.Rel AnswersReordered answers.extraction answers'.extraction
  retrieval : Option.Rel AnswersReordered answers.retrieval answers'.retrieval
  classification : Option.Rel AnswersReordered answers.classification answers'.classification

/-! ### Sets and answers -/

section Reordered

variable {α : Type} {c : Capability} {golden golden' : GoldenSet c α}
variable {answers answers' : List (Str × α)}

theorem GoldenSet.Reordered.eq_nil_iff (h : golden.Reordered golden') :
    golden.cases = [] ↔ golden'.cases = [] := by
  rw [← List.length_eq_zero_iff, h.cases.length_eq, List.length_eq_zero_iff]

theorem noCases_reordered (h : golden.Reordered golden') :
    noCases c golden = noCases c golden' := by
  unfold noCases
  rw [h.version, h.cases.length_eq]

theorem unanswered_reordered (h : golden.Reordered golden') :
    unanswered c golden = unanswered c golden' := by
  unfold unanswered
  rw [h.version, h.cases.length_eq]

theorem scored_reordered (h : golden.Reordered golden') (answered : Nat)
    (metrics : List (Str × ℚ)) :
    scored c golden answered metrics = scored c golden' answered metrics := by
  unfold scored
  rw [h.version, h.cases.length_eq]

/-- A case is answered with what it was answered with. -/
theorem AnswersReordered.lookup (h : AnswersReordered answers answers') (id : Str) :
    answers.lookup id = answers'.lookup id := by
  refine Option.ext fun answer => ?_
  rw [Dict.lookup_eq_some_iff h.2, Dict.lookup_eq_some_iff ((h.1.map _).nodup_iff.mp h.2),
    h.1.mem_iff]

theorem answeredCount_reordered (h : AnswersReordered answers answers') {ids ids' : List Str}
    (hids : ids.Perm ids') : answeredCount ids answers = answeredCount ids' answers' := by
  unfold answeredCount
  simp only [h.lookup]
  exact hids.countP_eq _

theorem Sets.Reordered.version (h : Sets.Reordered sets sets') (c : Capability) :
    sets'.version c = sets.version c := by
  cases c with
  | extraction => exact h.extraction.version
  | retrieval => exact h.retrieval.version
  | classification => exact h.classification.version

theorem Sets.Reordered.held (h : Sets.Reordered sets sets') (c : Capability) :
    sets'.held c = sets.held c := by
  cases c with
  | extraction => exact h.extraction.cases.length_eq.symm
  | retrieval => exact h.retrieval.cases.length_eq.symm
  | classification => exact h.classification.cases.length_eq.symm

end Reordered

/-! ### Extraction -/

section Extraction

variable {compare : Scalar → Scalar → Bool}

/-- What counts come to under a name, on top of others. -/
def tally (counts : List (Str × Counts)) (name : Str) (before : Counts) : Counts :=
  counts.foldl (fun total e => if name = e.1 then total + e.2 else total) before

theorem Counts.add_right_comm (a b c : Counts) : a + b + c = a + c + b := by
  cases a
  cases b
  cases c
  simp only [mk_add_mk, Nat.add_right_comm]

theorem tally_perm {counts counts' : List (Str × Counts)} (h : counts.Perm counts') (name : Str)
    (before : Counts) : tally counts name before = tally counts' name before := by
  unfold tally
  refine h.foldl_eq' (fun e _ e' _ total => ?_) before
  -- Two counts are added one after the other, in whichever order.
  by_cases he : name = e.1
  · by_cases he' : name = e'.1
    · rw [if_pos he, if_pos he', if_pos he', if_pos he, Counts.add_right_comm]
    · rw [if_pos he, if_neg he', if_neg he', if_pos he]
  · rw [if_neg he, if_neg he]

/-- Counts raised one after another come to the tally of each name. -/
theorem bump_tally (counts : List (Str × Counts)) (names : List Str) (c : Str → Counts) :
    counts.foldl (fun counted e => bump counted e.1 e.2) (names.map fun name => (name, c name)) =
      names.map fun name => (name, tally counts name (c name)) := by
  induction counts generalizing c with
  | nil => rfl
  | cons e counts ih =>
      rw [List.foldl_cons, bump_map, ih]
      rfl

variable (compare) in
/-- What every field of every case counts for. -/
def fieldsCounted (cases : List ExtractionCase) (answers : List (Str × ExtractionAnswer)) :
    List (Str × Counts) :=
  cases.flatMap fun case => case.fields.entries.map fun field =>
    (field.1, 0 + fieldCount compare field.2 (answerTo answers case.caseId field.1))

/-- Every field is counted under its name. -/
theorem perField_tally (cases : List ExtractionCase) (answers : List (Str × ExtractionAnswer)) :
    perField compare cases answers =
      (cases.flatMap fun case => case.fields.entries.map Prod.fst).dedup.map fun name =>
        (name, tally (fieldsCounted compare cases answers) name 0) := by
  have hfold : ∀ counted : List (Str × Counts),
      cases.foldl (fun counted case => case.fields.entries.foldl (fun counted field =>
        bump counted field.1
          (0 + fieldCount compare field.2 (answerTo answers case.caseId field.1))) counted)
        counted =
      (fieldsCounted compare cases answers).foldl (fun counted e => bump counted e.1 e.2)
        counted := by
    intro counted
    unfold fieldsCounted
    rw [List.foldl_flatMap]
    simp only [List.foldl_map]
  rw [perField_eq, hfold, bump_tally]

theorem nodup_keys_perField (cases : List ExtractionCase)
    (answers : List (Str × ExtractionAnswer)) :
    ((perField compare cases answers).map Prod.fst).Nodup := by
  rw [keys_perField]
  exact List.nodup_dedup _

/-- Fields are counted the same in any order of the cases. -/
theorem perField_perm {cases cases' : List ExtractionCase}
    (answers : List (Str × ExtractionAnswer)) (h : cases.Perm cases') :
    (perField compare cases answers).Perm (perField compare cases' answers) := by
  have hcounted : (fieldsCounted compare cases answers).Perm
      (fieldsCounted compare cases' answers) := h.flatMap_right _
  rw [perField_tally, perField_tally]
  simp only [tally_perm hcounted]
  exact (h.flatMap_right _).dedup.map _

/-- Sorted by their names, which no two share, counts are in one order. -/
theorem insertionSort_names {counted counted' : List (Str × Counts)}
    (hnodup : (counted.map Prod.fst).Nodup) (h : counted.Perm counted') :
    (counted.insertionSort fun a b => a.1 ≤ b.1) =
      counted'.insertionSort fun a b => a.1 ≤ b.1 := by
  have : Std.Total fun a b : Str × Counts => a.1 ≤ b.1 := ⟨fun a b => le_total a.1 b.1⟩
  have : IsTrans (Str × Counts) fun a b => a.1 ≤ b.1 := ⟨fun a b c => le_trans⟩
  refine List.Perm.eq_of_pairwise (fun a b ha hb hab hba => ?_) (List.pairwise_insertionSort _ _)
    (List.pairwise_insertionSort _ _)
    ((List.perm_insertionSort _ _).trans (h.trans (List.perm_insertionSort _ _).symm))
  exact List.inj_on_of_nodup_map hnodup ((List.mem_insertionSort _).mp ha)
    (h.mem_iff.mpr ((List.mem_insertionSort _).mp hb)) (le_antisymm hab hba)

/-- Extraction is measured the same in any order. -/
theorem measureExtraction_reordered {golden golden' : GoldenSet .extraction ExtractionCase}
    {answers answers' : Option (List (Str × ExtractionAnswer))}
    (hgolden : golden.Reordered golden') (hanswers : Option.Rel AnswersReordered answers answers') :
    measureExtraction exact compare golden answers =
      measureExtraction exact compare golden' answers' := by
  unfold measureExtraction
  by_cases hnil : golden.cases = []
  · rw [if_pos hnil, if_pos (hgolden.eq_nil_iff.mp hnil), noCases_reordered hgolden]
  · rw [if_neg hnil, if_neg fun h => hnil (hgolden.eq_nil_iff.mpr h)]
    cases hanswers with
    | none => exact unanswered_reordered hgolden
    | @some recorded recorded' hrecorded =>
        have hsame : perField compare golden'.cases recorded =
            perField compare golden'.cases recorded' := by
          unfold perField
          simp only [hrecorded.lookup]
        have hperm : (perField compare golden.cases recorded).Perm
            (perField compare golden'.cases recorded') :=
          hsame ▸ perField_perm recorded hgolden.cases
        have htotals : (perField compare golden.cases recorded).foldl
            (fun totals e => totals + e.2) 0 =
            (perField compare golden'.cases recorded').foldl (fun totals e => totals + e.2) 0 :=
          hperm.foldl_eq' (fun _ _ _ _ _ => Counts.add_right_comm _ _ _) 0
        simp only
        rw [insertionSort_names (nodup_keys_perField _ _) hperm, htotals,
          answeredCount_reordered hrecorded (hgolden.cases.map _), scored_reordered hgolden]

end Extraction

/-! ### Retrieval -/

section Retrieval

/-- Retrieval is measured the same in any order. -/
theorem measureRetrieval_reordered {golden golden' : GoldenSet .retrieval RetrievalCase}
    {answers answers' : Option (List (Str × RetrievalAnswer))} (topK : Nat)
    (hgolden : golden.Reordered golden') (hanswers : Option.Rel AnswersReordered answers answers') :
    measureRetrieval exact golden answers topK = measureRetrieval exact golden' answers' topK := by
  unfold measureRetrieval
  by_cases hnil : golden.cases = []
  · rw [if_pos hnil, if_pos (hgolden.eq_nil_iff.mp hnil), noCases_reordered hgolden]
  · rw [if_neg hnil, if_neg fun h => hnil (hgolden.eq_nil_iff.mpr h)]
    cases hanswers with
    | none => exact unanswered_reordered hgolden
    | @some recorded recorded' hrecorded =>
        have hsame : retrievedFor recorded = retrievedFor recorded' := by
          funext case
          unfold retrievedFor
          rw [hrecorded.lookup]
        have hranks : golden.cases.foldl (fun ranks case => exact.float (ranks +
            reciprocalRank exact (retrievedFor recorded' case).1 case.expected)) 0 =
            golden'.cases.foldl (fun ranks case => exact.float (ranks +
              reciprocalRank exact (retrievedFor recorded' case).1 case.expected)) 0 :=
          hgolden.cases.foldl_eq' (fun _ _ _ _ _ => (add_right_comm _ _ _ : (_ : ℚ) = _)) 0
        have hcounted : (golden.cases.map fun case =>
            citationCounts (retrievedFor recorded' case).1 (retrievedFor recorded' case).2).Perm
            (golden'.cases.map fun case =>
              citationCounts (retrievedFor recorded' case).1 (retrievedFor recorded' case).2) :=
          hgolden.cases.map _
        simp only
        rw [hsame, hranks, (hcounted.map Prod.fst).sum_eq, (hcounted.map Prod.snd).sum_eq,
          hgolden.cases.countP_eq, hgolden.cases.length_eq,
          answeredCount_reordered hrecorded (hgolden.cases.map _)]
        exact scored_reordered hgolden _ _

end Retrieval

/-! ### Classification -/

section Classification

theorem axisMetrics_perm (axis : Str) {pairs pairs' : List (Str × Option Str)}
    (h : pairs.Perm pairs') : axisMetrics exact axis pairs = axisMetrics exact axis pairs' := by
  unfold axisMetrics
  simp only [macroAverage_perm _ h]

theorem exists_numbers {scores : List Score} (h : none ∉ scores) :
    ∃ numbers : List ℚ, scores = numbers.map some := by
  induction scores with
  | nil => exact ⟨[], rfl⟩
  | cons s scores ih =>
      rw [List.mem_cons, not_or] at h
      rcases ih h.2 with ⟨numbers, rfl⟩
      cases s with
      | none => exact absurd rfl h.1
      | some q => exact ⟨q :: numbers, rfl⟩

/-- Scores are ranked the same in any order, where they are ranked. -/
theorem averagePrecision_reordered {positives positives' negatives negatives' : List Score}
    (hp : positives.Perm positives') (hn : negatives.Perm negatives') {area : Option ℚ}
    (h : averagePrecision exact positives negatives = .ok area) :
    averagePrecision exact positives' negatives' = .ok area := by
  have hpnil : positives = [] ↔ positives' = [] := by
    rw [← List.length_eq_zero_iff, hp.length_eq, List.length_eq_zero_iff]
  have hnnil : negatives = [] ↔ negatives' = [] := by
    rw [← List.length_eq_zero_iff, hn.length_eq, List.length_eq_zero_iff]
  by_cases hempty : positives = [] ∨ negatives = []
  · unfold averagePrecision at h ⊢
    rw [if_pos hempty] at h
    rw [if_pos (hempty.imp hpnil.mp hnnil.mp)]
    exact h
  · -- Then all of the scores are numbers.
    have hnumbers : none ∉ positives ++ negatives :=
      ((averagePrecision_ok_iff.mp ⟨area, h⟩).resolve_left fun he =>
        hempty (Or.inl he)).resolve_left fun he => hempty (Or.inr he)
    rw [List.mem_append, not_or] at hnumbers
    rcases exists_numbers hnumbers.1 with ⟨p, rfl⟩
    rcases exists_numbers hnumbers.2 with ⟨n, rfl⟩
    rcases exists_numbers (hp.mem_iff.not.mp hnumbers.1) with ⟨p', rfl⟩
    rcases exists_numbers (hn.mem_iff.not.mp hnumbers.2) with ⟨n', rfl⟩
    rw [List.map_perm_map_iff (Option.some_injective _)] at hp hn
    rw [List.map_eq_nil_iff, List.map_eq_nil_iff] at hpnil hnnil hempty
    rw [not_or] at hempty
    rw [averagePrecision_eq hempty.1 hempty.2] at h
    rw [averagePrecision_eq (hpnil.not.mp hempty.1) (hnnil.not.mp hempty.2),
      Precision.averagePrecision_perm hp.symm hn.symm]
    exact h

/-- Classification is measured the same in any order, where it is measured. -/
theorem measureClassification_reordered
    {golden golden' : GoldenSet .classification ClassificationCase}
    {answers answers' : Option (List (Str × ClassificationAnswer))} {m : Measurement}
    (hgolden : golden.Reordered golden') (hanswers : Option.Rel AnswersReordered answers answers')
    (h : measureClassification exact golden answers = .ok m) :
    measureClassification exact golden' answers' = .ok m := by
  unfold measureClassification at h ⊢
  by_cases hnil : golden.cases = []
  · rw [if_pos hnil] at h
    rw [if_pos (hgolden.eq_nil_iff.mp hnil), ← noCases_reordered hgolden]
    exact h
  · rw [if_neg hnil] at h
    rw [if_neg fun he => hnil (hgolden.eq_nil_iff.mpr he)]
    cases hanswers with
    | none =>
        rw [← h]
        exact congrArg Except.ok (unanswered_reordered hgolden).symm
    | @some recorded recorded' hrecorded =>
        have hscores : ∀ positive, (scoresOf recorded golden.cases positive).Perm
            (scoresOf recorded' golden'.cases positive) := by
          intro positive
          unfold scoresOf
          simp only [hrecorded.lookup]
          exact (hgolden.cases.filter _).filterMap _
        simp only at h ⊢
        rcases Failing.bind_eq_ok.mp h with ⟨curve, hcurve, hm⟩
        refine Failing.bind_eq_ok.mpr
          ⟨curve, averagePrecision_reordered (hscores true) (hscores false) hcurve, ?_⟩
        rw [← hm]
        simp only [hrecorded.lookup]
        rw [axisMetrics_perm (text "fraud_risk") (hgolden.cases.map _),
          axisMetrics_perm (text "severity") (hgolden.cases.map _), hgolden.cases.countP_eq,
          hgolden.cases.length_eq, answeredCount_reordered hrecorded (hgolden.cases.map _),
          scored_reordered hgolden]

end Classification

/-! ### A run's measurements -/

section Measure

variable {compare : Scalar → Scalar → Bool} {sets sets' : Sets} {answers answers' : Answers}

/-- The same is measured in any order of the cases and of the answers. -/
theorem measure_reordered (topK : Nat) (hsets : sets.Reordered sets')
    (hanswers : answers.Reordered answers') :
    measure exact compare sets' answers' topK = measure exact compare sets answers topK := by
  rcases exists_classified exact sets.classification answers.classification with ⟨m, hm⟩
  have hm' := measureClassification_reordered hsets.classification hanswers.classification hm
  unfold measure
  rw [hm, hm', measureExtraction_reordered hsets.extraction hanswers.extraction,
    measureRetrieval_reordered topK hsets.retrieval hanswers.retrieval]

end Measure

end Evaluation

end ClaimTriage
