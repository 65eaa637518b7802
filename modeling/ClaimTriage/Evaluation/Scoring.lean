import ClaimTriage.Evaluation.Metrics
import Mathlib.Data.List.DropRight

/-!
# Scoring

The sets, the answers, and the named metrics the two produce together. A metric
has a name because a baseline is a record of named numbers; the names of one
capability's metrics begin with its own, and a run measures every capability,
whatever it could read of it (`measure_ok`). Nothing keeps a run from measuring:
the reading of a curve could fail, but not with the scores answers have
(`exists_measure`).

## Main definitions

* `metricNames`, `fieldMetric`: The names of metrics.
* `IsMetric`: A name is one a run can measure.
* `Reading`: What a run could read of a capability.
* `Measurement`: One capability as a run read it.
* `measure`: Every capability measured.
* `Measurement.Of`: A capability's set, as a measurement has it.

## Theorems

* `exists_owns_of_isMetric`: A metric's name begins with a capability's.
* `owns_inj`: And with no other's.
* `measure_ok`: A run that measures has one measurement per capability, of its
  set.
* `exists_classified`: Every classification is measured.
* `exists_measure`: Every run measures.
-/

namespace ClaimTriage

namespace Evaluation

open Theory Text

/-- What the names of a capability's metrics begin with. -/
def Capability.dotted (c : Capability) : Str :=
  c.value ++ text "."

/-- The name is one of a capability's own. -/
def Capability.Owns (c : Capability) (name : Str) : Prop :=
  c.dotted <+: name

instance (c : Capability) (name : Str) : Decidable (c.Owns name) :=
  inferInstanceAs (Decidable (_ <+: _))

/-- Every metric a run can measure, apart from the one per field. -/
def metricNames : List Str :=
  [text "extraction.precision",
    text "extraction.recall",
    text "extraction.f1",
    text "retrieval.hit_rate",
    text "retrieval.mrr",
    text "retrieval.citation_validity",
    text "classification.fraud_risk.precision",
    text "classification.fraud_risk.recall",
    text "classification.fraud_risk.f1",
    text "classification.severity.precision",
    text "classification.severity.recall",
    text "classification.severity.f1",
    text "classification.routing_accuracy",
    text "classification.fraud_pr_auc"]

/-- What the name of a field's metric begins with. -/
def fieldDotted : Str :=
  text "extraction.field."

/-- What the name of a field's metric ends with. -/
def dottedF1 : Str :=
  text ".f1"

/-- The name of one extracted field's F1. -/
def fieldMetric (field : Str) : Str :=
  fieldDotted ++ field ++ dottedF1

/-- A name the pattern for a field's metric describes. -/
def IsFieldF1 (name : Str) : Prop :=
  fieldDotted <+: name ∧ dottedF1 <:+ name.drop fieldDotted.length ∧
    IsFieldName ((name.drop fieldDotted.length).rdrop dottedF1.length)

instance (name : Str) : Decidable (IsFieldF1 name) :=
  inferInstanceAs (Decidable (_ ∧ _ ∧ _))

/-- What the pattern matches: its end is also found before a last newline. -/
def MatchesFieldF1 (name : Str) : Prop :=
  IsFieldF1 name ∨ name.getLast? = some 0x0A ∧ IsFieldF1 name.dropLast

instance (name : Str) : Decidable (MatchesFieldF1 name) :=
  inferInstanceAs (Decidable (_ ∨ _))

/-- A name is one a run can measure. -/
def IsMetric (name : Str) : Prop :=
  name ∈ metricNames ∨ MatchesFieldF1 name

instance (name : Str) : Decidable (IsMetric name) :=
  inferInstanceAs (Decidable (_ ∨ _))

/-- A name a run can measure and a value that is a proportion: what a baseline
    and a floor are held to. -/
def Measurable (name : Str) (value : ℚ) : Prop :=
  IsMetric name ∧ 0 ≤ value ∧ value ≤ 1

instance (name : Str) (value : ℚ) : Decidable (Measurable name value) :=
  inferInstanceAs (Decidable (_ ∧ _ ∧ _))

theorem metricNames_owned : ∀ name ∈ metricNames, ∃ c ∈ capabilities, c.Owns name := by
  decide +kernel

theorem extraction_owns_field {name : Str} (h : IsFieldF1 name) :
    Capability.extraction.Owns name := by
  have hdotted : Capability.extraction.dotted <+: fieldDotted := by decide +kernel
  exact hdotted.trans h.1

/-- A metric's name begins with a capability's. -/
theorem exists_owns_of_isMetric {name : Str} (h : IsMetric name) :
    ∃ c : Capability, c.Owns name := by
  rcases h with hnamed | hfield | ⟨_, hfield⟩
  · rcases metricNames_owned name hnamed with ⟨c, _, hc⟩
    exact ⟨c, hc⟩
  · exact ⟨.extraction, extraction_owns_field hfield⟩
  · -- A last newline does not change what the name begins with.
    exact ⟨.extraction, (extraction_owns_field hfield).trans (List.dropLast_prefix name)⟩

/-- No name begins with two capabilities'. -/
theorem owns_inj {c d : Capability} {name : Str} (hc : c.Owns name) (hd : d.Owns name) : c = d := by
  have happart : ∀ c d : Capability, c.dotted <+: d.dotted → c = d := by
    intro c d
    cases c <;> cases d <;> decide +kernel
  rcases List.prefix_or_prefix_of_prefix hc hd with h | h
  · exact happart c d h
  · exact (happart d c h).symm

/-- What a run could read for one capability. -/
inductive Reading where
  | scored
  | noCases
  | notAnswered
  deriving DecidableEq

/-- One capability as a run read it: the set's version and size, and what it
    measured. -/
structure Measurement where
  capability : Capability
  version : Nat
  reading : Reading
  cases : Nat
  answered : Nat
  metrics : List (Str × ℚ)

section Measure

variable (A : Arithmetic) (compare : Scalar → Scalar → Bool)

/-- A set with no case. -/
def noCases {α : Type} (c : Capability) (golden : GoldenSet c α) : Measurement where
  capability := c
  version := golden.version
  reading := .noCases
  cases := golden.cases.length
  answered := 0
  metrics := []

/-- A set nothing answered. -/
def unanswered {α : Type} (c : Capability) (golden : GoldenSet c α) : Measurement where
  capability := c
  version := golden.version
  reading := .notAnswered
  cases := golden.cases.length
  answered := 0
  metrics := []

/-- A set that was answered, and what it measured. -/
def scored {α : Type} (c : Capability) (golden : GoldenSet c α) (answered : Nat)
    (metrics : List (Str × ℚ)) : Measurement where
  capability := c
  version := golden.version
  reading := .scored
  cases := golden.cases.length
  answered := answered
  metrics := metrics

/-- The counts of every field the cases state, by its name. -/
def perField (cases : List ExtractionCase) (answers : List (Str × ExtractionAnswer)) :
    List (Str × Counts) :=
  cases.foldl (fun counted case =>
      let predicted := match answers.lookup case.caseId with
        | none => []
        | some answer => answer.fields.entries
      case.fields.entries.foldl (fun counted field =>
        bump counted field.1 (fieldCounts compare [field] predicted)) counted)
    ((cases.flatMap fun case => case.fields.entries.map Prod.fst).dedup.map fun name => (name, 0))

/-- How many of the cases an answer is there for. -/
def answeredCount {α : Type} (ids : List Str) (answers : List (Str × α)) : Nat :=
  ids.countP fun id => (answers.lookup id).isSome

/-- Field-level precision, recall and F1, over the fields every case states. -/
def measureExtraction (golden : GoldenSet .extraction ExtractionCase)
    (answers : Option (List (Str × ExtractionAnswer))) : Measurement :=
  if golden.cases = [] then noCases .extraction golden
  else match answers with
  | none => unanswered .extraction golden
  | some answers =>
      let counted := perField compare golden.cases answers
      let totals := counted.foldl (fun totals e => totals + e.2) 0
      scored .extraction golden
        (answeredCount (golden.cases.map ExtractionCase.caseId) answers)
        ([(text "extraction.precision", totals.precision A),
          (text "extraction.recall", totals.recall A),
          (text "extraction.f1", totals.f1 A)] ++
          (counted.insertionSort fun a b => a.1 ≤ b.1).map fun e => (fieldMetric e.1, e.2.f1 A))

/-- What a retrieval case's answer retrieved and cited; nothing, where there is
    none. -/
def retrievedFor (answers : List (Str × RetrievalAnswer)) (case : RetrievalCase) :
    List ClauseRef × List ClauseRef :=
  match answers.lookup case.caseId with
  | none => ([], [])
  | some answer => (answer.retrieved, answer.cited)

/-- Hit rate at a depth, mean reciprocal rank, and how many of the citations
    resolved, where there is one. -/
def measureRetrieval (golden : GoldenSet .retrieval RetrievalCase)
    (answers : Option (List (Str × RetrievalAnswer))) (topK : Nat) : Measurement :=
  if golden.cases = [] then noCases .retrieval golden
  else match answers with
  | none => unanswered .retrieval golden
  | some answers =>
      let hits := golden.cases.countP fun case =>
        hitAt (retrievedFor answers case).1 case.expected topK
      let ranks := golden.cases.foldl (fun ranks case => A.float (ranks +
        reciprocalRank A (retrievedFor answers case).1 case.expected)) 0
      let counted := golden.cases.map fun case =>
        citationCounts (retrievedFor answers case).1 (retrievedFor answers case).2
      let resolved := (counted.map Prod.fst).sum
      let cited := (counted.map Prod.snd).sum
      let metrics := [(text "retrieval.hit_rate", A.float (hits / golden.cases.length)),
        (text "retrieval.mrr", A.float (ranks / golden.cases.length))]
      scored .retrieval golden (answeredCount (golden.cases.map RetrievalCase.caseId) answers)
        (if cited = 0 then metrics
          else metrics ++ [(text "retrieval.citation_validity", A.float (resolved / cited))])

/-- The metrics of one axis, by the averages of its labels. -/
def axisMetrics (axis : Str) (pairs : List (Str × Option Str)) : List (Str × ℚ) :=
  let counted := labelCounts pairs
  [(text "classification." ++ axis ++ text ".precision",
    macroAverage A counted (Counts.precision A)),
    (text "classification." ++ axis ++ text ".recall", macroAverage A counted (Counts.recall A)),
    (text "classification." ++ axis ++ text ".f1", macroAverage A counted (Counts.f1 A))]

/-- The scores of the cases an answer scored, of those the population labels one
    way. -/
def scoresOf (answers : List (Str × ClassificationAnswer)) (cases : List ClassificationCase)
    (positive : Bool) : List Score :=
  (cases.filter (·.fraudPositive = positive)).filterMap fun case =>
    (answers.lookup case.caseId).map fun answer => some answer.fraudScore

/-- Precision, recall and F1 per axis, routing accuracy, and the fraud score's
    area under the curve, where there is one. -/
def measureClassification (golden : GoldenSet .classification ClassificationCase)
    (answers : Option (List (Str × ClassificationAnswer))) : Except Raised Measurement :=
  if golden.cases = [] then .ok (noCases .classification golden)
  else match answers with
  | none => .ok (unanswered .classification golden)
  | some answers => do
      let risk := golden.cases.map fun case =>
        (case.fraudRisk, (answers.lookup case.caseId).map ClassificationAnswer.fraudRisk)
      let severity := golden.cases.map fun case =>
        (case.severity, (answers.lookup case.caseId).map ClassificationAnswer.severity)
      let routing := golden.cases.countP fun case =>
        (answers.lookup case.caseId).map ClassificationAnswer.queue = some case.queue
      let metrics := axisMetrics A (text "fraud_risk") risk ++
        axisMetrics A (text "severity") severity ++
        [(text "classification.routing_accuracy", A.float (routing / golden.cases.length))]
      let curve ← averagePrecision A (scoresOf answers golden.cases true)
        (scoresOf answers golden.cases false)
      return scored .classification golden
        (answeredCount (golden.cases.map ClassificationCase.caseId) answers)
        (metrics ++ curve.toList.map fun area => (text "classification.fraud_pr_auc", area))

/-- Measure every capability the sets hold, in the order the table lists
    them. -/
def measure (sets : Sets) (answers : Answers) (topK : Nat) : Except Raised (List Measurement) := do
  let classification ← measureClassification A sets.classification answers.classification
  return [measureExtraction A compare sets.extraction answers.extraction,
    measureRetrieval A sets.retrieval answers.retrieval topK,
    classification]

/-- A measurement is one of a capability's set: of its version and its size, and
    what it measured is named by the capability, each metric once. -/
structure Measurement.Of (sets : Sets) (m : Measurement) : Prop where
  version : m.version = sets.version m.capability
  cases : m.cases = sets.held m.capability
  owned : ∀ name ∈ m.metrics.map Prod.fst, m.capability.Owns name
  nodup : (m.metrics.map Prod.fst).Nodup
  reading : m.metrics ≠ [] → m.reading = .scored

variable {A} {compare}

theorem keys_bump (counted : List (Str × Counts)) (name : Str) (by_ : Counts) :
    (bump counted name by_).map Prod.fst = counted.map Prod.fst := by
  unfold bump
  rw [List.map_map]
  refine List.map_congr_left fun e _ => ?_
  simp only [Function.comp_apply]
  split <;> rfl

theorem keys_perField (cases : List ExtractionCase) (answers : List (Str × ExtractionAnswer)) :
    (perField compare cases answers).map Prod.fst =
      (cases.flatMap fun case => case.fields.entries.map Prod.fst).dedup := by
  -- Scoring a case raises counts and adds no name.
  have hcase : ∀ (predicted fields : List (Str × Scalar)) (counted : List (Str × Counts)),
      (fields.foldl (fun counted field =>
        bump counted field.1 (fieldCounts compare [field] predicted)) counted).map Prod.fst =
        counted.map Prod.fst := by
    intro predicted fields
    induction fields with
    | nil => exact fun _ => rfl
    | cons field fields ih =>
        intro counted
        rw [List.foldl_cons, ih, keys_bump]
  have hcases : ∀ (rest : List ExtractionCase) (counted : List (Str × Counts)),
      (rest.foldl (fun counted case =>
        let predicted := match answers.lookup case.caseId with
          | none => []
          | some answer => answer.fields.entries
        case.fields.entries.foldl (fun counted field =>
          bump counted field.1 (fieldCounts compare [field] predicted)) counted)
        counted).map Prod.fst = counted.map Prod.fst := by
    -- Nor does going through the cases, one after another.
    intro rest
    induction rest with
    | nil => exact fun _ => rfl
    | cons case rest ih =>
        intro counted
        rw [List.foldl_cons, ih, hcase]
  unfold perField
  rw [hcases, List.map_map]
  exact List.map_id _

theorem fieldMetric_inj {f g : Str} (h : fieldMetric f = fieldMetric g) : f = g := by
  unfold fieldMetric at h
  rw [List.append_assoc, List.append_assoc] at h
  exact List.append_cancel_right (List.append_cancel_left h)

theorem extraction_owns_fieldMetric (f : Str) : Capability.extraction.Owns (fieldMetric f) := by
  have hdotted : Capability.extraction.dotted <+: fieldDotted := by decide +kernel
  unfold fieldMetric
  rw [List.append_assoc]
  exact hdotted.trans (List.prefix_append _ _)

/-- What an extraction is measured by: three numbers of the whole, and one of each
    field. -/
theorem names_measured (counted : List (Str × Counts)) (a b c : ℚ) :
    (([(text "extraction.precision", a), (text "extraction.recall", b),
        (text "extraction.f1", c)] ++
      counted.map fun e => (fieldMetric e.1, e.2.f1 A)).map Prod.fst) =
      [text "extraction.precision", text "extraction.recall", text "extraction.f1"] ++
        (counted.map Prod.fst).map fieldMetric := by
  rw [List.map_append, List.map_map, List.map_map]
  rfl

theorem nodup_fieldNames {names : List Str} (h : names.Nodup) :
    ([text "extraction.precision", text "extraction.recall", text "extraction.f1"] ++
      names.map fieldMetric).Nodup := by
  rw [List.nodup_append]
  refine ⟨by decide +kernel, h.map fun _ _ => fieldMetric_inj, ?_⟩
  rintro whole hwhole field hfield rfl
  rcases List.mem_map.mp hfield with ⟨f, _, rfl⟩
  -- No number of the whole begins like one of a field.
  have hbegins : fieldDotted <+: fieldMetric f := by
    unfold fieldMetric
    rw [List.append_assoc]
    exact List.prefix_append _ _
  have hnone : ∀ name ∈ [text "extraction.precision", text "extraction.recall",
      text "extraction.f1"], ¬ fieldDotted <+: name := by decide +kernel
  exact hnone _ hwhole hbegins

variable (A) (compare) in
theorem measureExtraction_of (sets : Sets) (answers : Option (List (Str × ExtractionAnswer))) :
    (measureExtraction A compare sets.extraction answers).Of sets ∧
      (measureExtraction A compare sets.extraction answers).capability = .extraction := by
  unfold measureExtraction
  -- No case, no answer, or a reading: only the last has metrics at all.
  split
  · exact ⟨⟨rfl, rfl, nofun, List.nodup_nil, fun h => absurd rfl h⟩, rfl⟩
  · split
    · exact ⟨⟨rfl, rfl, nofun, List.nodup_nil, fun h => absurd rfl h⟩, rfl⟩
    · rename_i recorded
      refine ⟨⟨rfl, rfl, ?_, ?_, fun _ => rfl⟩, rfl⟩
      · simp only [scored, names_measured]
        intro name hname
        rcases List.mem_append.mp hname with hwhole | hfield
        · have howned : ∀ name ∈ [text "extraction.precision", text "extraction.recall",
              text "extraction.f1"], Capability.extraction.Owns name := by decide +kernel
          exact howned name hwhole
        · rcases List.mem_map.mp hfield with ⟨f, _, rfl⟩
          exact extraction_owns_fieldMetric f
      · simp only [scored, names_measured]
        refine nodup_fieldNames ?_
        -- The names per field are the fields the cases have, each once.
        rw [((List.perm_insertionSort _ _).map Prod.fst).nodup_iff, keys_perField]
        exact List.nodup_dedup _

theorem measureRetrieval_of (sets : Sets) (answers : Option (List (Str × RetrievalAnswer)))
    (topK : Nat) :
    (measureRetrieval A sets.retrieval answers topK).Of sets ∧
      (measureRetrieval A sets.retrieval answers topK).capability = .retrieval := by
  have hnames : ([text "retrieval.hit_rate", text "retrieval.mrr",
      text "retrieval.citation_validity"]).Nodup ∧ ∀ name ∈ [text "retrieval.hit_rate",
      text "retrieval.mrr", text "retrieval.citation_validity"],
      Capability.retrieval.Owns name := by decide +kernel
  unfold measureRetrieval
  split
  · exact ⟨⟨rfl, rfl, nofun, List.nodup_nil, fun h => absurd rfl h⟩, rfl⟩
  · split
    · exact ⟨⟨rfl, rfl, nofun, List.nodup_nil, fun h => absurd rfl h⟩, rfl⟩
    · -- The last of the names is there only where something was cited.
      refine ⟨⟨rfl, rfl, ?_, ?_, fun _ => rfl⟩, rfl⟩
      · intro name hname
        simp only [scored] at hname
        split at hname
        · exact hnames.2 name (List.mem_append_left [text "retrieval.citation_validity"] hname)
        · exact hnames.2 name hname
      · simp only [scored]
        split
        · exact hnames.1.sublist (List.sublist_append_left
            [text "retrieval.hit_rate", text "retrieval.mrr"] [text "retrieval.citation_validity"])
        · exact hnames.1

/-- What a classification is measured by, apart from the area under the
    curve. -/
def classificationNames : List Str :=
  [text "classification." ++ text "fraud_risk" ++ text ".precision",
    text "classification." ++ text "fraud_risk" ++ text ".recall",
    text "classification." ++ text "fraud_risk" ++ text ".f1",
    text "classification." ++ text "severity" ++ text ".precision",
    text "classification." ++ text "severity" ++ text ".recall",
    text "classification." ++ text "severity" ++ text ".f1",
    text "classification.routing_accuracy"]

theorem measureClassification_of {sets : Sets} {m : Measurement}
    {answers : Option (List (Str × ClassificationAnswer))}
    (h : measureClassification A sets.classification answers = .ok m) :
    m.Of sets ∧ m.capability = .classification := by
  have hnames : (classificationNames ++ [text "classification.fraud_pr_auc"]).Nodup ∧
      ∀ name ∈ classificationNames ++ [text "classification.fraud_pr_auc"],
        Capability.classification.Owns name := by decide +kernel
  unfold measureClassification at h
  split at h
  · cases h
    exact ⟨⟨rfl, rfl, nofun, List.nodup_nil, fun h => absurd rfl h⟩, rfl⟩
  · split at h
    · cases h
      exact ⟨⟨rfl, rfl, nofun, List.nodup_nil, fun h => absurd rfl h⟩, rfl⟩
    · rename_i recorded
      cases hcurve : averagePrecision A (scoresOf recorded sets.classification.cases true)
          (scoresOf recorded sets.classification.cases false) with
      | error e =>
          simp only [hcurve] at h
          cases h
      | ok curve =>
          simp only [hcurve] at h
          cases h
          cases curve with
          -- Where there is no curve the last of the names is missing.
          | none =>
              refine ⟨⟨rfl, rfl, fun name hname => ?_, ?_, fun _ => rfl⟩, rfl⟩
              · exact hnames.2 name (List.mem_append_left _ hname)
              · exact hnames.1.sublist (List.sublist_append_left classificationNames _)
          | some area => exact ⟨⟨rfl, rfl, hnames.2, hnames.1, fun _ => rfl⟩, rfl⟩

/-- A run that measures has one measurement per capability, of its set. -/
theorem measure_ok {sets : Sets} {answers : Answers} {topK : Nat} {ms : List Measurement}
    (h : measure A compare sets answers topK = .ok ms) :
    ms.map Measurement.capability = capabilities ∧ ∀ m ∈ ms, m.Of sets := by
  unfold measure at h
  cases hclass : measureClassification A sets.classification answers.classification with
  | error e =>
      rw [hclass] at h
      cases h
  | ok m =>
      rw [hclass] at h
      cases h
      have hext := measureExtraction_of A compare sets answers.extraction
      have hret := measureRetrieval_of (A := A) sets answers.retrieval topK
      have hcls := measureClassification_of hclass
      -- The three are measured in the order of the capabilities.
      refine ⟨?_, ?_⟩
      · simp only [List.map_cons, List.map_nil, hext.2, hret.2, hcls.2]
        rfl
      · simp only [List.forall_mem_cons]
        exact ⟨hext.1, hret.1, hcls.1, fun _ h => absurd h List.not_mem_nil⟩

/-- Every score of an answer is a number. -/
theorem none_notMem_scoresOf (answers : List (Str × ClassificationAnswer))
    (cases : List ClassificationCase) (positive : Bool) :
    none ∉ scoresOf answers cases positive := by
  unfold scoresOf
  intro hnone
  rcases List.mem_filterMap.mp hnone with ⟨case, _, hscore⟩
  rcases Option.map_eq_some_iff.mp hscore with ⟨answer, _, hanswer⟩
  cases hanswer

variable (A) in
/-- Every classification is measured: the scores there are to rank are numbers, so
    their curve is read to its end. -/
theorem exists_classified (golden : GoldenSet .classification ClassificationCase)
    (answers : Option (List (Str × ClassificationAnswer))) :
    ∃ m, measureClassification A golden answers = .ok m := by
  unfold measureClassification
  split
  · exact ⟨_, rfl⟩
  · split
    · exact ⟨_, rfl⟩
    · rename_i recorded
      have hcurve : ∃ curve, averagePrecision A (scoresOf recorded golden.cases true)
          (scoresOf recorded golden.cases false) = .ok curve := by
        refine averagePrecision_ok_iff.mpr (Or.inr (Or.inr ?_))
        rw [List.mem_append, not_or]
        exact ⟨none_notMem_scoresOf _ _ _, none_notMem_scoresOf _ _ _⟩
      rcases hcurve with ⟨curve, hcurve⟩
      simp only [hcurve]
      exact ⟨_, rfl⟩

variable (A) (compare) in
/-- Every run measures. -/
theorem exists_measure (sets : Sets) (answers : Answers) (topK : Nat) :
    ∃ ms, measure A compare sets answers topK = .ok ms := by
  rcases exists_classified A sets.classification answers.classification with ⟨m, hm⟩
  unfold measure
  rw [hm]
  exact ⟨_, rfl⟩

end Measure

end Evaluation

end ClaimTriage
