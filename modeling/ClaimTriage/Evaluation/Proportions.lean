import ClaimTriage.Evaluation.Curve
import ClaimTriage.Evaluation.Scoring
import Mathlib.Algebra.Order.BigOperators.Group.List

/-!
# What Is Measured Is a Proportion

In exact arithmetic every value a run measures lies between zero and one, and
every name it measures under is a metric's, except where a field has a name that
no metric can carry. The pattern a field's name is held to also takes a name with
a newline after it; the pattern for a metric's name has its end elsewhere, and
does not take the newline in between (`isMetric_fieldMetric_iff`).

## Main definitions

* `Proportion`: A value between zero and one.
* `NamesCarried`: Every field that is scored has a name a metric can carry.

## Theorems

* `isMetric_fieldMetric_iff`: Which names of fields make names of metrics.
* `proportion_of_measure`: Every value measured is a proportion.
* `isMetric_iff_of_measure`: When every name measured is a metric's.
-/

namespace ClaimTriage

namespace Evaluation

open Theory Text

/-- A value between zero and one. -/
def Proportion (q : ℚ) : Prop :=
  0 ≤ q ∧ q ≤ 1

/-! ### Names -/

/-- A field's name makes a metric's name exactly if a metric can carry it. -/
theorem isMetric_fieldMetric_iff {f : Str} : IsMetric (fieldMetric f) ↔ IsFieldName f := by
  -- A field's metric begins as such a metric does, and no other does.
  have hbegins : fieldDotted <+: fieldMetric f := by
    unfold fieldMetric
    rw [List.append_assoc]
    exact List.prefix_append _ _
  have hnamed : fieldMetric f ∉ metricNames := by
    have hnone : ∀ name ∈ metricNames, ¬ fieldDotted <+: name := by decide +kernel
    exact fun h => hnone _ h hbegins
  have hdrop : (fieldMetric f).drop fieldDotted.length = f ++ dottedF1 := by
    unfold fieldMetric
    rw [List.append_assoc, List.drop_left]
  have hrdrop : (f ++ dottedF1).rdrop dottedF1.length = f := by
    rw [List.rdrop_append_length]
  -- It ends with a digit, so the newline that the pattern lets pass is not there.
  have hlast : (fieldMetric f).getLast? ≠ some 0x0A := by
    have hdotted : dottedF1.getLast? = some 0x31 := by decide +kernel
    unfold fieldMetric
    rw [List.getLast?_append, hdotted]
    exact fun h => absurd (Option.some.inj h) (by decide)
  have hfield : IsFieldF1 (fieldMetric f) ↔ IsFieldName f := by
    unfold IsFieldF1
    rw [hdrop, hrdrop]
    exact ⟨fun h => h.2.2, fun h => ⟨hbegins, List.suffix_append _ _, h⟩⟩
  unfold IsMetric MatchesFieldF1
  simp only [hnamed, hlast, false_and, or_false, false_or, hfield]

/-- Every field that is scored has a name a metric can carry. -/
def NamesCarried (sets : Sets) (answers : Answers) : Prop :=
  answers.extraction ≠ none → ∀ case ∈ sets.extraction.cases,
    ∀ name ∈ case.fields.entries.map Prod.fst, IsFieldName name

section Names

variable {A : Arithmetic} {compare : Scalar → Scalar → Bool}

theorem isMetric_of_counted (counted : List (Str × Counts)) (a b c : ℚ) :
    (∀ e ∈ [(text "extraction.precision", a), (text "extraction.recall", b),
        (text "extraction.f1", c)] ++ counted.map fun e => (fieldMetric e.1, e.2.f1 A),
      IsMetric e.1) ↔ ∀ name ∈ counted.map Prod.fst, IsFieldName name := by
  have hwhole : ∀ name ∈ [text "extraction.precision", text "extraction.recall",
      text "extraction.f1"], IsMetric name := by decide +kernel
  rw [← List.forall_mem_map (f := Prod.fst) (P := IsMetric), names_measured,
    List.forall_mem_append, and_iff_right hwhole, List.forall_mem_map]
  simp only [isMetric_fieldMetric_iff]

/-- An extraction's names are metrics' exactly if its fields' names can be carried. -/
theorem isMetric_of_measureExtraction {golden : GoldenSet .extraction ExtractionCase}
    {answers : Option (List (Str × ExtractionAnswer))} :
    (∀ e ∈ (measureExtraction A compare golden answers).metrics, IsMetric e.1) ↔
      (answers ≠ none → ∀ case ∈ golden.cases, ∀ name ∈ case.fields.entries.map Prod.fst,
        IsFieldName name) := by
  unfold measureExtraction
  -- No case has no field, and no metric.
  split
  · rename_i hcases
    rw [hcases]
    exact ⟨fun _ _ case hcase => absurd hcase List.not_mem_nil, fun _ => nofun⟩
  · -- Without answers there are no metrics either.
    split
    · exact ⟨fun _ h => absurd rfl h, fun _ => nofun⟩
    · rename_i recorded
      refine (isMetric_of_counted _ _ _ _).trans ?_
      -- The fields that are counted are those of the cases.
      have hnames : ∀ name, name ∈ ((perField compare golden.cases recorded).insertionSort
          fun a b => a.1 ≤ b.1).map Prod.fst ↔
          ∃ case ∈ golden.cases, name ∈ case.fields.entries.map Prod.fst := by
        intro name
        rw [((List.perm_insertionSort _ _).map Prod.fst).mem_iff, keys_perField, List.mem_dedup,
          List.mem_flatMap]
      simp only [hnames, ne_eq, reduceCtorEq, not_false_eq_true, forall_const]
      exact ⟨fun h case hcase name hname => h name ⟨case, hcase, hname⟩,
        fun h name ⟨case, hcase, hname⟩ => h case hcase name hname⟩

theorem isMetric_of_measureRetrieval {golden : GoldenSet .retrieval RetrievalCase}
    {answers : Option (List (Str × RetrievalAnswer))} {topK : Nat} :
    ∀ e ∈ (measureRetrieval A golden answers topK).metrics, IsMetric e.1 := by
  have hnames : IsMetric (text "retrieval.hit_rate") ∧ IsMetric (text "retrieval.mrr") ∧
      IsMetric (text "retrieval.citation_validity") := by decide +kernel
  unfold measureRetrieval
  split
  · exact List.forall_mem_nil _
  · split
    · exact List.forall_mem_nil _
    · -- Citations are scored only where something was cited.
      simp only [scored]
      split
      · simp only [List.forall_mem_cons]
        exact ⟨hnames.1, hnames.2.1, List.forall_mem_nil _⟩
      · simp only [List.forall_mem_append, List.forall_mem_cons]
        exact ⟨⟨hnames.1, hnames.2.1, List.forall_mem_nil _⟩, hnames.2.2, List.forall_mem_nil _⟩

theorem isMetric_of_measureClassification
    {golden : GoldenSet .classification ClassificationCase}
    {answers : Option (List (Str × ClassificationAnswer))} {m : Measurement}
    (h : measureClassification A golden answers = .ok m) : ∀ e ∈ m.metrics, IsMetric e.1 := by
  have hnames : ∀ name ∈ classificationNames, IsMetric name := by decide +kernel
  have harea : IsMetric (text "classification.fraud_pr_auc") := by decide +kernel
  unfold measureClassification at h
  split at h
  · cases h
    exact List.forall_mem_nil _
  · split at h
    · cases h
      exact List.forall_mem_nil _
    · rename_i recorded
      cases hcurve : averagePrecision A (scoresOf recorded golden.cases true)
          (scoresOf recorded golden.cases false) with
      | error e =>
          simp only [hcurve] at h
          cases h
      | ok curve =>
          simp only [hcurve] at h
          cases h
          intro e he
          rcases List.mem_append.mp he with he | he
          · exact hnames e.1 (List.mem_map_of_mem (f := Prod.fst) he)
          · -- The area is one of the metrics where both labels are there.
            rcases List.mem_map.mp he with ⟨area, _, rfl⟩
            exact harea

/-- The names a run measures under are metrics' exactly if every field's name can be carried. -/
theorem isMetric_iff_of_measure {sets : Sets} {answers : Answers} {topK : Nat}
    {ms : List Measurement} (h : measure A compare sets answers topK = .ok ms) :
    (∀ m ∈ ms, ∀ e ∈ m.metrics, IsMetric e.1) ↔ NamesCarried sets answers := by
  unfold measure at h
  cases hclass : measureClassification A sets.classification answers.classification with
  | error e =>
      rw [hclass] at h
      cases h
  | ok m =>
      rw [hclass] at h
      cases h
      simp only [List.forall_mem_cons, isMetric_of_measureExtraction]
      -- Only extraction has metrics whose names are the sets' own.
      exact ⟨fun h => h.1, fun h => ⟨h, isMetric_of_measureRetrieval,
        isMetric_of_measureClassification hclass, List.forall_mem_nil _⟩⟩

end Names

/-! ### Values -/

section Values

theorem ratio_proportion {part whole : Nat} (h : part ≤ whole) :
    Proportion (ratio exact part whole) := by
  unfold ratio
  split
  · exact ⟨le_rfl, zero_le_one⟩
  · exact ⟨div_nonneg (Nat.cast_nonneg _) (Nat.cast_nonneg _),
      div_le_one_of_le₀ (Nat.cast_le.mpr h) (Nat.cast_nonneg _)⟩

theorem precision_proportion (c : Counts) : Proportion (c.precision exact) :=
  ratio_proportion (Nat.le_add_right _ _)

theorem recall_proportion (c : Counts) : Proportion (c.recall exact) :=
  ratio_proportion (Nat.le_add_right _ _)

theorem f1_proportion (c : Counts) : Proportion (c.f1 exact) := by
  unfold Counts.f1
  refine ratio_proportion ?_
  omega

/-- What lies between zero and one lies there on average too. -/
theorem mean_proportion {l : List ℚ} (h : ∀ q ∈ l, Proportion q) :
    Proportion (l.sum / l.length) := by
  have hle : l.sum ≤ l.length := by
    have hcard := List.sum_le_card_nsmul l 1 fun q hq => (h q hq).2
    rwa [nsmul_eq_mul, mul_one] at hcard
  exact ⟨div_nonneg (List.sum_nonneg fun q hq => (h q hq).1) (Nat.cast_nonneg _),
    div_le_one_of_le₀ hle (Nat.cast_nonneg _)⟩

theorem macroAverage_proportion {counted : List (Str × Counts)} {metric : Counts → ℚ}
    (h : ∀ c, Proportion (metric c)) : Proportion (macroAverage exact counted metric) := by
  unfold macroAverage
  split
  · exact ⟨le_rfl, zero_le_one⟩
  · have hmean := mean_proportion (l := counted.map fun e => metric e.2) fun q hq => by
      rcases List.mem_map.mp hq with ⟨e, _, rfl⟩
      exact h e.2
    rwa [List.length_map] at hmean

theorem reciprocalRankFrom_proportion (expected ranked : List ClauseRef) {rank : Nat}
    (hrank : 1 ≤ rank) : Proportion (reciprocalRankFrom exact expected rank ranked) := by
  induction ranked generalizing rank with
  | nil => exact ⟨le_rfl, zero_le_one⟩
  | cons clause rest ih =>
      unfold reciprocalRankFrom
      split
      · have hone : (1 : ℚ) ≤ rank := by exact_mod_cast hrank
        exact ⟨by simp only [exact, id_eq]; positivity,
          div_le_one_of_le₀ hone (Nat.cast_nonneg _)⟩
      · exact ih (by omega)

variable {compare : Scalar → Scalar → Bool}

theorem proportion_of_measureExtraction {golden : GoldenSet .extraction ExtractionCase}
    {answers : Option (List (Str × ExtractionAnswer))} :
    ∀ e ∈ (measureExtraction exact compare golden answers).metrics, Proportion e.2 := by
  unfold measureExtraction
  split
  · exact List.forall_mem_nil _
  · split
    · exact List.forall_mem_nil _
    · simp only [scored, List.forall_mem_append, List.forall_mem_cons]
      refine ⟨⟨precision_proportion _, recall_proportion _, f1_proportion _,
        List.forall_mem_nil _⟩, ?_⟩
      intro e he
      rcases List.mem_map.mp he with ⟨counted, _, rfl⟩
      exact f1_proportion _

theorem citationCounts_le (retrieved cited : List ClauseRef) :
    (citationCounts retrieved cited).1 ≤ (citationCounts retrieved cited).2 :=
  List.countP_le_length

theorem proportion_of_measureRetrieval {golden : GoldenSet .retrieval RetrievalCase}
    {answers : Option (List (Str × RetrievalAnswer))} {topK : Nat} :
    ∀ e ∈ (measureRetrieval exact golden answers topK).metrics, Proportion e.2 := by
  unfold measureRetrieval
  split
  · exact List.forall_mem_nil _
  · split
    · exact List.forall_mem_nil _
    · rename_i recorded
      have hhits : ∀ p : RetrievalCase → Bool,
          Proportion ((golden.cases.countP p : Nat) / golden.cases.length : ℚ) := by
        -- A count of cases is no more than all of them.
        intro p
        exact ⟨div_nonneg (Nat.cast_nonneg _) (Nat.cast_nonneg _),
          div_le_one_of_le₀ (Nat.cast_le.mpr List.countP_le_length) (Nat.cast_nonneg _)⟩
      have hranks : golden.cases.foldl (fun ranks case => exact.float (ranks +
          reciprocalRank exact (retrievedFor recorded case).1 case.expected)) 0 =
          (golden.cases.map fun case =>
            reciprocalRank exact (retrievedFor recorded case).1 case.expected).sum := by
        -- The ranks are added up from the first case on.
        rw [List.sum_eq_foldl, List.foldl_map]
        rfl
      have hmean : Proportion ((golden.cases.map fun case =>
          reciprocalRank exact (retrievedFor recorded case).1 case.expected).sum /
          golden.cases.length) := by
        have hmean := mean_proportion (l := golden.cases.map fun case =>
          reciprocalRank exact (retrievedFor recorded case).1 case.expected) fun q hq => by
            rcases List.mem_map.mp hq with ⟨case, _, rfl⟩
            exact reciprocalRankFrom_proportion _ _ le_rfl
        rwa [List.length_map] at hmean
      have hcited : (((golden.cases.map fun case => citationCounts (retrievedFor recorded case).1
          (retrievedFor recorded case).2).map Prod.fst).sum) ≤
          (((golden.cases.map fun case => citationCounts (retrievedFor recorded case).1
            (retrievedFor recorded case).2).map Prod.snd).sum) := by
        rw [List.map_map, List.map_map]
        exact List.sum_le_sum fun case _ => citationCounts_le _ _
      have hmetrics : ∀ e ∈ [(text "retrieval.hit_rate", exact.float ((golden.cases.countP
            fun case => hitAt (retrievedFor recorded case).1 case.expected topK) /
            golden.cases.length)),
          (text "retrieval.mrr", exact.float (golden.cases.foldl (fun ranks case => exact.float
            (ranks + reciprocalRank exact (retrievedFor recorded case).1 case.expected)) 0 /
            golden.cases.length))], Proportion e.2 := by
        simp only [List.forall_mem_cons]
        refine ⟨hhits _, ?_, List.forall_mem_nil _⟩
        rw [hranks]
        exact hmean
      simp only [scored]
      split
      · exact hmetrics
      · rw [List.forall_mem_append]
        refine ⟨hmetrics, List.forall_mem_singleton.mpr ?_⟩
        exact ⟨div_nonneg (Nat.cast_nonneg _) (Nat.cast_nonneg _),
          div_le_one_of_le₀ (Nat.cast_le.mpr hcited) (Nat.cast_nonneg _)⟩

theorem proportion_of_axisMetrics {axis : Str} {pairs : List (Str × Option Str)} :
    ∀ e ∈ axisMetrics exact axis pairs, Proportion e.2 := by
  simp only [axisMetrics, List.forall_mem_cons]
  exact ⟨macroAverage_proportion precision_proportion, macroAverage_proportion recall_proportion,
    macroAverage_proportion f1_proportion, List.forall_mem_nil _⟩

/-- An area, where there is one, is a proportion. -/
theorem proportion_of_averagePrecision {positives negatives : List Score} {area : ℚ}
    (h : averagePrecision exact positives negatives = .ok (some area)) : Proportion area := by
  have hnumbers : ∀ l : List Score, none ∉ l → ∃ numbers : List ℚ, l = numbers.map some := by
    intro l hl
    induction l with
    | nil => exact ⟨[], rfl⟩
    | cons s l ih =>
        rw [List.mem_cons, not_or] at hl
        rcases Option.ne_none_iff_exists'.mp (Ne.symm hl.1) with ⟨q, rfl⟩
        rcases ih hl.2 with ⟨numbers, rfl⟩
        exact ⟨q :: numbers, rfl⟩
  have hne : positives ≠ [] ∧ negatives ≠ [] := by
    by_contra hnot
    rw [not_and_or, not_not, not_not] at hnot
    unfold averagePrecision at h
    rw [if_pos hnot] at h
    cases h
  have hnone : none ∉ positives ++ negatives :=
    ((averagePrecision_ok_iff.mp ⟨_, h⟩).resolve_left hne.1).resolve_left hne.2
  rw [List.mem_append, not_or] at hnone
  rcases hnumbers positives hnone.1 with ⟨ps, rfl⟩
  rcases hnumbers negatives hnone.2 with ⟨ns, rfl⟩
  have hps : ps ≠ [] := fun heq => hne.1 (by rw [heq]; rfl)
  have hns : ns ≠ [] := fun heq => hne.2 (by rw [heq]; rfl)
  rw [averagePrecision_eq hps hns] at h
  cases h
  exact ⟨(Precision.averagePrecision_pos hps).le, Precision.averagePrecision_le_one hps⟩

theorem proportion_of_measureClassification {golden : GoldenSet .classification ClassificationCase}
    {answers : Option (List (Str × ClassificationAnswer))} {m : Measurement}
    (h : measureClassification exact golden answers = .ok m) :
    ∀ e ∈ m.metrics, Proportion e.2 := by
  unfold measureClassification at h
  split at h
  · cases h
    exact List.forall_mem_nil _
  · split at h
    · cases h
      exact List.forall_mem_nil _
    · rename_i recorded
      cases hcurve : averagePrecision exact (scoresOf recorded golden.cases true)
          (scoresOf recorded golden.cases false) with
      | error e =>
          simp only [hcurve] at h
          cases h
      | ok curve =>
          simp only [hcurve] at h
          cases h
          simp only [scored, List.forall_mem_append]
          refine ⟨⟨⟨proportion_of_axisMetrics, proportion_of_axisMetrics⟩,
            List.forall_mem_singleton.mpr ?_⟩, ?_⟩
          · exact ⟨div_nonneg (Nat.cast_nonneg _) (Nat.cast_nonneg _),
              div_le_one_of_le₀ (Nat.cast_le.mpr List.countP_le_length) (Nat.cast_nonneg _)⟩
          · intro e he
            rcases List.mem_map.mp he with ⟨area, harea, rfl⟩
            rw [Option.mem_toList] at harea
            exact proportion_of_averagePrecision (harea ▸ hcurve)

/-- Every value a run measures is a proportion. -/
theorem proportion_of_measure {sets : Sets} {answers : Answers} {topK : Nat}
    {ms : List Measurement} (h : measure exact compare sets answers topK = .ok ms) :
    ∀ m ∈ ms, ∀ e ∈ m.metrics, Proportion e.2 := by
  unfold measure at h
  cases hclass : measureClassification exact sets.classification answers.classification with
  | error e =>
      rw [hclass] at h
      cases h
  | ok m =>
      rw [hclass] at h
      cases h
      simp only [List.forall_mem_cons]
      exact ⟨proportion_of_measureExtraction, proportion_of_measureRetrieval,
        proportion_of_measureClassification hclass, List.forall_mem_nil _⟩

end Values

end Evaluation

end ClaimTriage
