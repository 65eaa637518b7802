import ClaimTriage.Evaluation.Scoring
import ClaimTriage.Theory.Dict
import ClaimTriage.Theory.Ordered
import Mathlib.Algebra.Order.BigOperators.Group.List

/-!
# Correcting an Answer

What is measured is never less for an answer that was put right.

Counts are compared one by one: those of a corrected answer hold no fewer true
positives, and no more of what was wrong and of what was missed (`NoBetter`).
Every proportion of counts follows that order, also where there is nothing to be
a proportion of (`ratio_le_ratio`), and it is kept by all that is done with
counts: raising them under a name, adding them up, averaging what they come to.

## Main definitions

* `Counts.NoBetter`: Counts that are no better than others.
* `NotLowered`: Metrics none of which is less than it was.
* `Right`: An answer to a field is the right one.
* `Corrected`: One answer to one field put right.
* `Axis`, `rebanded`: One band of one answer put right.

## Theorems

* `measureExtraction_notLowered`: Right answers to fields lower nothing.
* `measureClassification_notLowered`: Right bands lower nothing.
* `correction_lowers_nothing`: Neither does.
-/

namespace ClaimTriage

namespace Evaluation

open Theory Text

/-- Counts are no better than others: they hold no more that was found, and no less that was
    wrong and that was missed. -/
def Counts.NoBetter (a b : Counts) : Prop :=
  a.truePositives ≤ b.truePositives ∧ b.falsePositives ≤ a.falsePositives ∧
    b.falseNegatives ≤ a.falseNegatives

/-- Counts by name, none of them better than its counterpart. -/
def TalliesNoBetter : List (Str × Counts) → List (Str × Counts) → Prop :=
  List.Forall₂ fun a b => a.1 = b.1 ∧ a.2.NoBetter b.2

/-- The same metrics, none of them less than before. -/
def NotLowered : List (Str × ℚ) → List (Str × ℚ) → Prop :=
  List.Forall₂ fun a b => a.1 = b.1 ∧ a.2 ≤ b.2

/-! ### Proportions -/

section Proportions

variable {a b c d : Counts} {counted counted' : List (Str × Counts)}

theorem ratio_nonneg (numerator denominator : Nat) : 0 ≤ ratio exact numerator denominator := by
  unfold ratio
  split
  · exact le_rfl
  · exact div_nonneg (Nat.cast_nonneg _) (Nat.cast_nonneg _)

/-- More of the one part and less of the other is no lower a proportion. -/
theorem ratio_le_ratio {part part' rest rest' : Nat} (hpart : part ≤ part')
    (hrest : rest' ≤ rest) :
    ratio exact part (part + rest) ≤ ratio exact part' (part' + rest') := by
  rcases Nat.eq_zero_or_pos part with rfl | hpos
  · -- Of nothing found the proportion is zero, whatever it is a proportion of.
    have hzero : ratio exact 0 (0 + rest) = 0 := by
      unfold ratio
      split
      · rfl
      · exact (congrArg (· / _) Nat.cast_zero).trans (zero_div _)
    rw [hzero]
    exact ratio_nonneg _ _
  · have hne : part + rest ≠ 0 := by omega
    have hne' : part' + rest' ≠ 0 := by omega
    unfold ratio
    rw [if_neg hne, if_neg hne']
    simp only [exact, id_eq]
    rw [div_le_div_iff₀ (by exact_mod_cast Nat.pos_of_ne_zero hne)
      (by exact_mod_cast Nat.pos_of_ne_zero hne')]
    have hcross : part * rest' ≤ part' * rest := Nat.mul_le_mul hpart hrest
    have hproduct : part * (part' + rest') ≤ part' * (part + rest) := by
      rw [Nat.mul_add, Nat.mul_add, Nat.mul_comm part part']
      omega
    exact_mod_cast hproduct

theorem Counts.NoBetter.precision_le (h : a.NoBetter b) : a.precision exact ≤ b.precision exact :=
  ratio_le_ratio h.1 h.2.1

theorem Counts.NoBetter.recall_le (h : a.NoBetter b) : a.recall exact ≤ b.recall exact :=
  ratio_le_ratio h.1 h.2.2

theorem Counts.NoBetter.f1_le (h : a.NoBetter b) : a.f1 exact ≤ b.f1 exact := by
  unfold Counts.f1
  rw [Nat.add_assoc, Nat.add_assoc]
  exact ratio_le_ratio (Nat.mul_le_mul_left 2 h.1) (Nat.add_le_add h.2.1 h.2.2)

/-! ### Counts -/

theorem Counts.NoBetter.refl (a : Counts) : a.NoBetter a :=
  ⟨le_rfl, le_rfl, le_rfl⟩

theorem Counts.NoBetter.add (hab : a.NoBetter b) (hcd : c.NoBetter d) :
    (a + c).NoBetter (b + d) :=
  ⟨Nat.add_le_add hab.1 hcd.1, Nat.add_le_add hab.2.1 hcd.2.1, Nat.add_le_add hab.2.2 hcd.2.2⟩

theorem TalliesNoBetter.refl (counted : List (Str × Counts)) : TalliesNoBetter counted counted :=
  List.forall₂_same.mpr fun _ _ => ⟨rfl, .refl _⟩

theorem TalliesNoBetter.bump (h : TalliesNoBetter counted counted') (name : Str)
    (hby : a.NoBetter b) : TalliesNoBetter (bump counted name a) (bump counted' name b) := by
  unfold TalliesNoBetter Evaluation.bump
  rw [List.forall₂_map_left_iff, List.forall₂_map_right_iff]
  refine h.imp fun e e' he => ?_
  rw [he.1]
  split
  · exact ⟨rfl, he.2.add hby⟩
  · exact ⟨he.1, he.2⟩

/-- Counts raised by what is worse than nothing are no better than before. -/
theorem TalliesNoBetter.bump_left (h : TalliesNoBetter counted counted') (name : Str)
    (hby : a.NoBetter 0) : TalliesNoBetter (Evaluation.bump counted name a) counted' := by
  unfold TalliesNoBetter Evaluation.bump
  rw [List.forall₂_map_left_iff]
  refine h.imp fun e e' he => ?_
  split
  · exact ⟨he.1, he.2.add hby⟩
  · exact he

/-- Added up, counts that are no better come to counts that are not. -/
theorem TalliesNoBetter.total (h : TalliesNoBetter counted counted') (hab : a.NoBetter b) :
    (counted.foldl (fun totals e => totals + e.2) a).NoBetter
      (counted'.foldl (fun totals e => totals + e.2) b) := by
  induction h generalizing a b with
  | nil => exact hab
  | cons he _ ih => exact ih (hab.add he.2)

/-- Averaged, they come to no more. -/
theorem TalliesNoBetter.macroAverage_le {metric : Counts → ℚ}
    (hmetric : ∀ a b : Counts, a.NoBetter b → metric a ≤ metric b)
    (h : TalliesNoBetter counted counted') :
    macroAverage exact counted metric ≤ macroAverage exact counted' metric := by
  have hlength : counted.length = counted'.length := h.length_eq
  have hsum : (counted.map fun e => metric e.2).sum ≤ (counted'.map fun e => metric e.2).sum := by
    refine List.Forall₂.sum_le_sum ?_
    rw [List.forall₂_map_left_iff, List.forall₂_map_right_iff]
    exact h.imp fun e e' he => hmetric _ _ he.2
  -- Where nothing was counted the average is zero, on both sides.
  have hnil : counted = [] ↔ counted' = [] := by
    rw [← List.length_eq_zero_iff, hlength, List.length_eq_zero_iff]
  unfold macroAverage
  simp only [hnil, hlength]
  split
  · exact le_rfl
  · exact div_le_div_of_nonneg_right hsum (Nat.cast_nonneg _)

end Proportions

/-! ### Fields -/

/-- What answers give for a field of a case: nothing, where it is left out. -/
def answerTo (answers : List (Str × ExtractionAnswer)) (caseId name : Str) : Scalar :=
  (((answers.lookup caseId).elim [] fun answer => answer.fields.entries).lookup name).getD .none

section Fields

variable {compare : Scalar → Scalar → Bool}

variable (compare) in
/-- An answer is right: it is none where none is stated, and elsewhere one that agrees. -/
def Right (truth answer : Scalar) : Prop :=
  (truth = .none ∧ answer = .none) ∨
    (truth ≠ .none ∧ answer ≠ .none ∧ compare truth answer = true)

variable (compare) in
/-- Answers that are as others were but for one case's answer to one field, which is right. -/
structure Corrected (cases : List ExtractionCase) (caseId name : Str)
    (answers answers' : List (Str × ExtractionAnswer)) : Prop where
  right : ∀ case ∈ cases, case.caseId = caseId → ∀ truth, (name, truth) ∈ case.fields.entries →
    Right compare truth (answerTo answers' caseId name)
  others : ∀ id field, ¬ (id = caseId ∧ field = name) →
    answerTo answers' id field = answerTo answers id field

/-- No answer to a field counts for more than a right one. -/
theorem fieldCount_noBetter {truth answer right : Scalar} (h : Right compare truth right) :
    (fieldCount compare truth answer).NoBetter (fieldCount compare truth right) := by
  rcases h with ⟨rfl, rfl⟩ | ⟨htruth, hright, hcompare⟩
  · -- What is absent and answered with nothing counts for nothing.
    by_cases hanswer : answer = .none
    · rw [hanswer]
      exact .refl _
    · unfold fieldCount
      rw [if_pos rfl, if_neg hanswer, if_pos rfl, if_pos rfl]
      exact ⟨le_rfl, Nat.zero_le _, Nat.zero_le _⟩
  · -- A right answer counts one that was found, and nothing that was wrong or missed.
    have hone : fieldCount compare truth right = ⟨1, 0, 0⟩ := by
      unfold fieldCount
      rw [if_neg htruth, if_neg hright, if_pos hcompare]
    rw [hone]
    refine ⟨?_, Nat.zero_le _, Nat.zero_le _⟩
    unfold fieldCount
    rw [if_neg htruth]
    split
    · exact Nat.zero_le _
    · split
      · exact le_rfl
      · exact Nat.zero_le _

/-- A case's fields, one of them at a time, are scored by the answers to them. -/
theorem perField_eq (cases : List ExtractionCase) (answers : List (Str × ExtractionAnswer)) :
    perField compare cases answers =
      cases.foldl (fun counted case => case.fields.entries.foldl (fun counted field =>
          bump counted field.1
            (0 + fieldCount compare field.2 (answerTo answers case.caseId field.1)))
        counted)
      ((cases.flatMap fun case => case.fields.entries.map Prod.fst).dedup.map fun n => (n, 0)) := by
  unfold perField answerTo
  congr 1
  funext counted case
  -- A case without an answer is scored against no fields.
  cases answers.lookup case.caseId with
  | none => rfl
  | some answer => rfl

/-- Answers that are as they were or right are no worse, field by field. -/
theorem perField_noBetter {cases : List ExtractionCase}
    {answers answers' : List (Str × ExtractionAnswer)}
    (h : ∀ case ∈ cases, ∀ field ∈ case.fields.entries,
      answerTo answers' case.caseId field.1 = answerTo answers case.caseId field.1 ∨
        Right compare field.2 (answerTo answers' case.caseId field.1)) :
    TalliesNoBetter (perField compare cases answers) (perField compare cases answers') := by
  rw [perField_eq, perField_eq]
  refine List.foldl_rel (.refl _) fun case hcase counted counted' hcounted => ?_
  refine List.foldl_rel hcounted fun field hfield counted counted' hcounted => ?_
  refine hcounted.bump _ (Counts.NoBetter.add (.refl 0) ?_)
  rcases h case hcase field hfield with hsame | hright
  · rw [hsame]
    exact .refl _
  · exact fieldCount_noBetter hright

/-- Measured, they lower nothing. -/
theorem measureExtraction_notLowered {golden : GoldenSet .extraction ExtractionCase}
    {answers answers' : List (Str × ExtractionAnswer)}
    (h : ∀ case ∈ golden.cases, ∀ field ∈ case.fields.entries,
      answerTo answers' case.caseId field.1 = answerTo answers case.caseId field.1 ∨
        Right compare field.2 (answerTo answers' case.caseId field.1)) :
    NotLowered (measureExtraction exact compare golden (some answers)).metrics
      (measureExtraction exact compare golden (some answers')).metrics := by
  have htallies := perField_noBetter h
  have htotal := htallies.total (.refl 0)
  unfold measureExtraction
  split
  · exact .nil
  · refine .cons ⟨rfl, htotal.precision_le⟩ (.cons ⟨rfl, htotal.recall_le⟩
      (.cons ⟨rfl, htotal.f1_le⟩ ?_))
    -- The names are the same, so sorting by them keeps the counts together.
    have hsorted : TalliesNoBetter
        ((perField compare golden.cases answers).insertionSort fun a b => a.1 ≤ b.1)
        ((perField compare golden.cases answers').insertionSort fun a b => a.1 ≤ b.1) := by
      refine Ordered.forall₂_insertionSort (fun a b a' b' hab hab' => ?_) htallies
      rw [hab.1, hab'.1]
    simp only [List.append_eq, List.nil_append]
    rw [List.forall₂_map_left_iff, List.forall₂_map_right_iff]
    exact hsorted.imp fun e e' he => ⟨congrArg fieldMetric he.1, he.2.f1_le⟩

end Fields

/-! ### Bands -/

/-- The axes a classification answers a band on. -/
inductive Axis where
  | fraudRisk
  | severity

/-- The band a case states. -/
def Axis.truth : Axis → ClassificationCase → Str
  | .fraudRisk => ClassificationCase.fraudRisk
  | .severity => ClassificationCase.severity

/-- The band an answer gives. -/
def Axis.answered : Axis → ClassificationAnswer → Str
  | .fraudRisk => ClassificationAnswer.fraudRisk
  | .severity => ClassificationAnswer.severity

/-- An answer with another band. -/
def Axis.answering (band : Str) : Axis → ClassificationAnswer → ClassificationAnswer
  | .fraudRisk => fun answer => { answer with fraudRisk := band }
  | .severity => fun answer => { answer with severity := band }

/-- Answers with another band for one case. -/
def rebanded (axis : Axis) (caseId band : Str) (answers : List (Str × ClassificationAnswer)) :
    List (Str × ClassificationAnswer) :=
  answers.map fun e => (e.1, if e.1 = caseId then axis.answering band e.2 else e.2)

section Bands

variable {axis : Axis} {caseId band : Str} {answers : List (Str × ClassificationAnswer)}

theorem lookup_rebanded (id : Str) :
    (rebanded axis caseId band answers).lookup id =
      (answers.lookup id).map fun answer =>
        if id = caseId then axis.answering band answer else answer :=
  Dict.lookup_mapValues (fun id answer =>
    if id = caseId then axis.answering band answer else answer)

/-- An answer with another band gives that band, and what it gave beside it. -/
theorem answered_answering (axis axis' : Axis) (band : Str) (answer : ClassificationAnswer) :
    axis'.answered (axis.answering band answer) = axis'.answered answer ∨
      axis'.answered (axis.answering band answer) = band ∧ axis' = axis := by
  cases axis <;> cases axis'
  · exact Or.inr ⟨rfl, rfl⟩
  · exact Or.inl rfl
  · exact Or.inl rfl
  · exact Or.inr ⟨rfl, rfl⟩

/-- The band changed on one axis leaves the rest of an answer as it was. -/
theorem queue_answering (answer : ClassificationAnswer) :
    (axis.answering band answer).queue = answer.queue := by
  cases axis <;> rfl

theorem fraudScore_answering (answer : ClassificationAnswer) :
    (axis.answering band answer).fraudScore = answer.fraudScore := by
  cases axis <;> rfl

/-- What is read of answers apart from their bands is as it was. -/
theorem map_lookup_rebanded {β : Type} {f : ClassificationAnswer → β}
    (hf : ∀ answer, f (axis.answering band answer) = f answer) (id : Str) :
    ((rebanded axis caseId band answers).lookup id).map f = (answers.lookup id).map f := by
  rw [lookup_rebanded, Option.map_map]
  congr 1
  funext answer
  simp only [Function.comp_apply]
  split
  · exact hf answer
  · rfl

variable (answers) in
/-- The bands read on an axis are as they were, or the case's own. -/
theorem bands_rebanded {cases : List ClassificationCase} (axis' : Axis)
    (htruth : ∀ case ∈ cases, case.caseId = caseId → axis.truth case = band) :
    ∀ case ∈ cases,
      ((rebanded axis caseId band answers).lookup case.caseId).map axis'.answered =
        (answers.lookup case.caseId).map axis'.answered ∨
      ((rebanded axis caseId band answers).lookup case.caseId).map axis'.answered =
        some (axis'.truth case) := by
  intro case hcase
  rw [lookup_rebanded]
  cases answers.lookup case.caseId with
  | none => exact Or.inl rfl
  | some answer =>
      by_cases hid : case.caseId = caseId
      · simp only [Option.map_some, if_pos hid]
        rcases answered_answering axis axis' band answer with hsame | ⟨hband, rfl⟩
        · exact Or.inl (congrArg some hsame)
        · exact Or.inr (congrArg some (hband.trans (htruth case hcase hid).symm))
      · simp only [Option.map_some, if_neg hid]
        exact Or.inl trivial

/-- One case's answer counted: no answer counts for more than the truth. -/
theorem labelCounts_noBetter {α : Type} {l : List α} {truth : α → Str}
    {answered answered' : α → Option Str}
    (h : ∀ a ∈ l, answered' a = answered a ∨ answered' a = some (truth a)) :
    TalliesNoBetter (labelCounts (l.map fun a => (truth a, answered a)))
      (labelCounts (l.map fun a => (truth a, answered' a))) := by
  unfold labelCounts
  rw [List.foldl_map, List.foldl_map, List.map_map, List.map_map]
  refine List.foldl_rel (.refl _) fun a ha counted counted' hcounted => ?_
  have hright : TalliesNoBetter (bump counted (truth a) ⟨1, 0, 0⟩)
      (bump counted' (truth a) ⟨1, 0, 0⟩) := hcounted.bump _ (.refl _)
  have hmissed : TalliesNoBetter (bump counted (truth a) ⟨0, 0, 1⟩)
      (bump counted' (truth a) ⟨0, 0, 1⟩) := hcounted.bump _ (.refl _)
  have hworse : TalliesNoBetter (bump counted (truth a) ⟨0, 0, 1⟩)
      (bump counted' (truth a) ⟨1, 0, 0⟩) :=
    hcounted.bump _ ⟨Nat.zero_le _, le_rfl, Nat.zero_le _⟩
  dsimp only
  rcases h a ha with hsame | htruth
  · rw [hsame]
    split
    · exact hright
    · cases answered a with
      | none => exact hmissed
      | some name => exact hmissed.bump _ (.refl _)
  · rw [htruth, if_pos rfl]
    split
    · exact hright
    · cases answered a with
      | none => exact hworse
      | some name => exact hworse.bump_left _ ⟨le_rfl, Nat.zero_le _, le_rfl⟩

/-- The averages of one axis are no lower. -/
theorem axisMetrics_notLowered {name : Str} {pairs pairs' : List (Str × Option Str)}
    (h : TalliesNoBetter (labelCounts pairs) (labelCounts pairs')) :
    NotLowered (axisMetrics exact name pairs) (axisMetrics exact name pairs') :=
  .cons ⟨rfl, h.macroAverage_le fun _ _ => Counts.NoBetter.precision_le⟩
    (.cons ⟨rfl, h.macroAverage_le fun _ _ => Counts.NoBetter.recall_le⟩
      (.cons ⟨rfl, h.macroAverage_le fun _ _ => Counts.NoBetter.f1_le⟩ .nil))

theorem NotLowered.refl (metrics : List (Str × ℚ)) : NotLowered metrics metrics :=
  List.forall₂_same.mpr fun _ _ => ⟨rfl, le_rfl⟩

theorem NotLowered.append {a b c d : List (Str × ℚ)} (hab : NotLowered a b)
    (hcd : NotLowered c d) : NotLowered (a ++ c) (b ++ d) :=
  List.rel_append hab hcd

/-- Measured, a right band lowers nothing. -/
theorem measureClassification_notLowered {golden : GoldenSet .classification ClassificationCase}
    {m : Measurement}
    (htruth : ∀ case ∈ golden.cases, case.caseId = caseId → axis.truth case = band)
    (h : measureClassification exact golden (some answers) = .ok m) :
    ∃ m', measureClassification exact golden (some (rebanded axis caseId band answers)) = .ok m' ∧
      NotLowered m.metrics m'.metrics := by
  have hscores : ∀ positive, scoresOf (rebanded axis caseId band answers) golden.cases positive =
      scoresOf answers golden.cases positive := by
    intro positive
    unfold scoresOf
    congr 1
    funext case
    refine map_lookup_rebanded (fun answer => ?_) case.caseId
    rw [fraudScore_answering]
  have hqueue : ∀ case : ClassificationCase,
      ((rebanded axis caseId band answers).lookup case.caseId).map ClassificationAnswer.queue =
        (answers.lookup case.caseId).map ClassificationAnswer.queue :=
    fun case => map_lookup_rebanded queue_answering case.caseId
  have hrisk := labelCounts_noBetter (bands_rebanded answers .fraudRisk htruth)
  have hseverity := labelCounts_noBetter (bands_rebanded answers .severity htruth)
  unfold measureClassification at h ⊢
  split at h
  · rename_i hcases
    cases h
    exact ⟨_, if_pos hcases, .nil⟩
  · rename_i hcases
    rw [if_neg hcases]
    simp only [hscores, hqueue]
    cases hcurve : averagePrecision exact (scoresOf answers golden.cases true)
        (scoresOf answers golden.cases false) with
    | error e =>
        simp only [hcurve] at h
        cases h
    | ok curve =>
        simp only [hcurve] at h
        cases h
        refine ⟨_, rfl, ?_⟩
        exact (((axisMetrics_notLowered hrisk).append (axisMetrics_notLowered hseverity)).append
          (.refl _)).append (.refl _)

end Bands

/-! ### One answer put right -/

/-- Putting one answer to a field right lowers nothing an extraction is measured by, and putting
    one band right lowers nothing a classification is measured by. -/
theorem correction_lowers_nothing (compare : Scalar → Scalar → Bool) :
    (∀ (golden : GoldenSet .extraction ExtractionCase) (caseId name : Str)
        (answers answers' : List (Str × ExtractionAnswer)),
      Corrected compare golden.cases caseId name answers answers' →
        NotLowered (measureExtraction exact compare golden (some answers)).metrics
          (measureExtraction exact compare golden (some answers')).metrics) ∧
    ∀ (golden : GoldenSet .classification ClassificationCase) (axis : Axis) (caseId band : Str)
        (answers : List (Str × ClassificationAnswer)) (m : Measurement),
      (∀ case ∈ golden.cases, case.caseId = caseId → axis.truth case = band) →
      measureClassification exact golden (some answers) = .ok m →
        ∃ m', measureClassification exact golden (some (rebanded axis caseId band answers)) =
          .ok m' ∧ NotLowered m.metrics m'.metrics := by
  refine ⟨fun golden caseId name answers answers' h => measureExtraction_notLowered ?_,
    fun golden axis caseId band answers m htruth hm =>
      measureClassification_notLowered htruth hm⟩
  intro case hcase field hfield
  by_cases hone : case.caseId = caseId ∧ field.1 = name
  · refine Or.inr ?_
    rw [hone.1, hone.2]
    refine h.right case hcase hone.1 field.2 ?_
    rw [← hone.2]
    exact hfield
  · exact Or.inl (h.others _ _ hone)

/-- One case, one field. -/
def oneStated : GoldenSet .extraction ExtractionCase where
  version := 1
  description := []
  cases := [{
    caseId := text "c"
    document := []
    fields := ⟨[(text "a", .str (text "1"))], List.nodup_singleton _, by decide +kernel⟩
    fields_ne_nil := List.cons_ne_nil _ _ }]
  path := []
  version_pos := Nat.one_pos

/-- It is answered rightly. -/
def answeredRightly : List (Str × ExtractionAnswer) :=
  [(text "c", ⟨⟨[(text "a", .str (text "1"))], List.nodup_singleton _, by decide +kernel⟩⟩)]

/-- One claim, of a high risk. -/
def oneBanded : GoldenSet .classification ClassificationCase where
  version := 1
  description := []
  cases := [⟨text "c", [], true, text "high", text "minor", text "q"⟩]
  path := []
  version_pos := Nat.one_pos

/-- It is answered as one of a low risk. -/
def bandedWrongly : List (Str × ClassificationAnswer) :=
  [(text "c", ⟨0, text "low", text "minor", text "q", by decide +kernel⟩)]

theorem truth_oneBanded : ∀ case ∈ oneBanded.cases, case.caseId = text "c" →
    Axis.fraudRisk.truth case = text "high" := by
  intro case hcase _
  rw [List.mem_singleton.mp hcase]
  rfl

/-- Answered rightly, the one field is all found, and no less than before; and so is
    the one risk. -/
theorem correction_of_one :
    NotLowered (measureExtraction exact (fun a b => a = b) oneStated (some [])).metrics
        (measureExtraction exact (fun a b => a = b) oneStated (some answeredRightly)).metrics ∧
      (measureExtraction exact (fun a b => a = b) oneStated (some answeredRightly)).metrics.lookup
        (text "extraction.f1") = some 1 ∧
      ∃ m m', measureClassification exact oneBanded (some bandedWrongly) = .ok m ∧
        measureClassification exact oneBanded
          (some (rebanded .fraudRisk (text "c") (text "high") bandedWrongly)) = .ok m' ∧
        NotLowered m.metrics m'.metrics ∧
        m.metrics.lookup (text "classification.fraud_risk.f1") = some 0 ∧
        m'.metrics.lookup (text "classification.fraud_risk.f1") = some 1 := by
  refine ⟨(correction_lowers_nothing fun a b => a = b).1 oneStated (text "c") (text "a") []
    answeredRightly ⟨?_, ?_⟩, ?_, ?_⟩
  · intro case hcase _ truth htruth
    rcases List.mem_singleton.mp hcase with rfl
    cases List.mem_singleton.mp htruth
    exact Or.inr (by decide +kernel)
  · intro id field hother
    have hanswer : ∀ id field, ¬ (id = text "c" ∧ field = text "a") →
        answerTo answeredRightly id field = .none := by
      intro id field hother
      unfold answerTo answeredRightly
      by_cases hid : id = text "c"
      · have hfield : (field == text "a") = false := beq_false_of_ne fun h => hother ⟨hid, h⟩
        subst hid
        simp only [List.lookup_cons_self, Option.elim_some, List.lookup_cons, hfield,
          List.lookup_nil, Option.getD_none]
      · simp only [List.lookup_cons, beq_false_of_ne hid, List.lookup_nil, Option.elim_none,
          Option.getD_none]
    rw [hanswer id field hother]
    rfl
  · decide +kernel
  · have hbefore : (measureClassification exact oneBanded (some bandedWrongly)).toOption.map
        (fun m => m.metrics.lookup (text "classification.fraud_risk.f1")) = some (some 0) := by
      decide +kernel
    have hafter : (measureClassification exact oneBanded
        (some (rebanded .fraudRisk (text "c") (text "high") bandedWrongly))).toOption.map
        (fun m => m.metrics.lookup (text "classification.fraud_risk.f1")) = some (some 1) := by
      decide +kernel
    rcases exists_classified exact oneBanded (some bandedWrongly) with ⟨m, hm⟩
    rcases (correction_lowers_nothing fun a b => a = b).2 oneBanded .fraudRisk (text "c")
      (text "high") bandedWrongly m truth_oneBanded hm with ⟨m', hm', hno⟩
    rw [hm] at hbefore
    rw [hm'] at hafter
    exact ⟨m, m', hm, hm', hno, Option.some.inj hbefore, Option.some.inj hafter⟩

end Evaluation

end ClaimTriage
