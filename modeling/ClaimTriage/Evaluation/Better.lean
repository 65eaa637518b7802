import ClaimTriage.Evaluation.BaselineFile
import ClaimTriage.Evaluation.Correction
import ClaimTriage.Evaluation.Ranks

/-!
# Better Answers

A run that passes goes on passing when its answers get better.

Answers are no worse than others when every field of every case is answered as it
was or rightly, every band and every queue as it was or as the case states it, and
every ranking has its first expected clause no later and resolves every citation it
resolved. Nothing that is measured is lower for them, under the same names, and no
rule that the gate declares fires about a higher number: neither the floors, nor the
tolerance after its rounding.

A score is not among what may get better. Taking a positive's score up past a
negative's may lower the area under the curve, where the positive had the company
of others.

## Main definitions

* `FieldsNoWorse`, `RanksNoWorse`, `BandsNoWorse`: One capability's answers are no
  worse than others.
* `Answers.NoWorse`: A run's are.
* `Measurement.NoWorse`: Nothing measured is lower.

## Theorems

* `passed_of_noWorse`: The gate passes measurements that are no worse than ones it
  passes.
* `measure_noWorse`: Answers that are no worse are measured, and no lower.
* `main_of_noWorse`: A run goes on passing with them.
-/

namespace ClaimTriage

namespace Evaluation

open Theory Text

/-! ### Measurements -/

/-- A capability's measurement has what another has, and no metric of it lower. -/
structure Measurement.NoWorse (m m' : Measurement) : Prop where
  capability : m'.capability = m.capability
  version : m'.version = m.version
  cases : m'.cases = m.cases
  reading : m'.reading = m.reading
  metrics : NotLowered m.metrics m'.metrics

section Judge

variable {m m' : Measurement} {ms ms' : List Measurement} {metrics metrics' : List (Str × ℚ)}
variable {baseline : Baseline} {rules : Rules} {settings : Settings}

theorem NotLowered.keys (h : NotLowered metrics metrics') :
    metrics'.map Prod.fst = metrics.map Prod.fst := by
  induction h with
  | nil => rfl
  | cons he _ ih => rw [List.map_cons, List.map_cons, he.1, ih]

theorem NotLowered.lookup (h : NotLowered metrics metrics') {name : Str} {v : ℚ}
    (hv : metrics.lookup name = some v) : ∃ v', metrics'.lookup name = some v' ∧ v ≤ v' := by
  induction h with
  | nil => cases hv
  | @cons e e' rest rest' he _ ih =>
      rcases e with ⟨n, w⟩
      rcases e' with ⟨n', w'⟩
      rcases he with ⟨hn, hle⟩
      simp only at hn
      subst hn
      rw [List.lookup_cons] at hv ⊢
      split at hv
      · cases hv
        exact ⟨w', rfl, hle⟩
      · exact ih hv

/-- What is not below its floor is not when it is higher. -/
theorem not_below_of_le {v v' : ℚ} (hle : v ≤ v') {floor : Option ℚ} (h : ¬ Below v floor) :
    ¬ Below v' floor := by
  rintro ⟨f, hf, hlt⟩
  exact h ⟨f, hf, lt_of_le_of_lt hle hlt⟩

/-- What has not fallen has not when it is higher: the drop is no greater, and no
    greater once it is rounded. -/
theorem not_fallen_of_le {v v' : ℚ} (hle : v ≤ v') {atBaseline tolerance : Option ℚ}
    (h : ¬ Fallen exact v atBaseline tolerance) : ¬ Fallen exact v' atBaseline tolerance := by
  rintro ⟨b, hb, hfell⟩
  refine h ⟨b, hb, ?_⟩
  cases tolerance with
  | none => exact hfell
  | some t =>
      have hdrop : Rounding.rounded 9 (b - v') ≤ Rounding.rounded 9 (b - v) :=
        Rounding.rounded_mono 9 (sub_le_sub_left hle b)
      exact lt_of_lt_of_le hfell hdrop

/-- No rule fires about a capability that is no worse than one none fires about. -/
theorem failuresOf_of_noWorse (h : m.NoWorse m')
    (hnone : failuresOf exact baseline rules m = []) :
    failuresOf exact baseline rules m' = [] := by
  rw [failuresOf_eq_nil_iff] at hnone ⊢
  have hnames : names baseline m' = names baseline m := by
    unfold names
    rw [h.metrics.keys, h.capability]
  rw [h.capability, h.cases, hnames]
  refine ⟨hnone.1, fun name hname => ?_⟩
  rcases hnone.2 name hname with ⟨v, hv, hfloor, hfell⟩
  rcases h.metrics.lookup hv with ⟨v', hv', hle⟩
  exact ⟨v', hv', not_below_of_le hle hfloor, not_fallen_of_le hle hfell⟩

/-- The gate passes measurements that are no worse than ones it passes. -/
theorem passed_of_noWorse (h : List.Forall₂ Measurement.NoWorse ms ms')
    (hpassed : (judge exact ms baseline rules settings).Passed) :
    (judge exact ms' baseline rules settings).Passed := by
  rw [passed_iff_failuresOf] at hpassed ⊢
  have hall : ∀ m' ∈ ms', ∃ m ∈ ms, m.NoWorse m' := fun m' hm' =>
    Ordered.exists_mem_of_forall₂ h.flip hm'
  refine ⟨hpassed.1.imp id fun hsame => ⟨hsame.1, fun m' hm' => ?_⟩, fun m' hm' => ?_⟩
  · rcases hall m' hm' with ⟨m, hm, hno⟩
    rw [hno.version, hno.capability]
    exact hsame.2 m hm
  · rcases hall m' hm' with ⟨m, hm, hno⟩
    exact failuresOf_of_noWorse hno (hpassed.2 m hm)

end Judge

/-! ### Answers -/

variable (compare : Scalar → Scalar → Bool)

/-- Every field of every case is answered as it was, or rightly. -/
def FieldsNoWorse (cases : List ExtractionCase)
    (answers answers' : List (Str × ExtractionAnswer)) : Prop :=
  ∀ case ∈ cases, ∀ field ∈ case.fields.entries,
    answerTo answers' case.caseId field.1 = answerTo answers case.caseId field.1 ∨
      Right compare field.2 (answerTo answers' case.caseId field.1)

/-- Every ranking has its first expected clause no later than it had, cites what it
    cited, and resolves every citation it resolved. -/
def RanksNoWorse (cases : List RetrievalCase) (answers answers' : List (Str × RetrievalAnswer)) :
    Prop :=
  ∀ case ∈ cases,
    reciprocalRank exact (retrievedFor answers case).1 case.expected ≤
      reciprocalRank exact (retrievedFor answers' case).1 case.expected ∧
    (retrievedFor answers' case).2 = (retrievedFor answers case).2 ∧
    ∀ citation ∈ (retrievedFor answers case).2,
      resolves (retrievedFor answers case).1 citation = true →
        resolves (retrievedFor answers' case).1 citation = true

instance (cases : List RetrievalCase) (answers answers' : List (Str × RetrievalAnswer)) :
    Decidable (RanksNoWorse cases answers answers') :=
  inferInstanceAs (Decidable (∀ case ∈ cases, _))

/-- Every band and every queue is as it was or as the case states it, and every score
    as it was. -/
def BandsNoWorse (cases : List ClassificationCase)
    (answers answers' : List (Str × ClassificationAnswer)) : Prop :=
  ∀ case ∈ cases,
    (∀ axis : Axis, (answers'.lookup case.caseId).map axis.answered =
        (answers.lookup case.caseId).map axis.answered ∨
      (answers'.lookup case.caseId).map axis.answered = some (axis.truth case)) ∧
    ((answers'.lookup case.caseId).map ClassificationAnswer.queue =
        (answers.lookup case.caseId).map ClassificationAnswer.queue ∨
      (answers'.lookup case.caseId).map ClassificationAnswer.queue = some case.queue) ∧
    (answers'.lookup case.caseId).map ClassificationAnswer.fraudScore =
      (answers.lookup case.caseId).map ClassificationAnswer.fraudScore

/-- A run's answers are no worse than others: the same capabilities are answered, and
    none of them worse. -/
structure Answers.NoWorse (sets : Sets) (answers answers' : Answers) : Prop where
  extraction : Option.Rel (FieldsNoWorse compare sets.extraction.cases) answers.extraction
    answers'.extraction
  retrieval : Option.Rel (RanksNoWorse sets.retrieval.cases) answers.retrieval answers'.retrieval
  classification : Option.Rel (BandsNoWorse sets.classification.cases) answers.classification
    answers'.classification

section Measure

variable {compare} {sets : Sets} {topK : Nat}

theorem Measurement.NoWorse.refl (m : Measurement) : m.NoWorse m :=
  ⟨rfl, rfl, rfl, rfl, .refl _⟩

variable (compare) in
/-- An extraction that has cases and answers is scored. -/
theorem exists_scored {golden : GoldenSet .extraction ExtractionCase} (h : golden.cases ≠ [])
    (recorded : List (Str × ExtractionAnswer)) :
    ∃ answered metrics, measureExtraction exact compare golden (some recorded) =
      scored .extraction golden answered metrics :=
  ⟨_, _, if_neg h⟩

theorem measureExtraction_noWorse {golden : GoldenSet .extraction ExtractionCase}
    {answers answers' : Option (List (Str × ExtractionAnswer))}
    (h : Option.Rel (FieldsNoWorse compare golden.cases) answers answers') :
    (measureExtraction exact compare golden answers).NoWorse
      (measureExtraction exact compare golden answers') := by
  cases h with
  | none => exact .refl _
  | @some recorded recorded' h =>
      have hmetrics := measureExtraction_notLowered h
      by_cases hcases : golden.cases = []
      · unfold measureExtraction
        rw [if_pos hcases, if_pos hcases]
        exact .refl _
      · rcases exists_scored compare hcases recorded with ⟨n, metrics, hscored⟩
        rcases exists_scored compare hcases recorded' with ⟨n', metrics', hscored'⟩
        rw [hscored, hscored'] at hmetrics ⊢
        exact ⟨rfl, rfl, rfl, rfl, hmetrics⟩

theorem sum_le_foldl {α : Type} {l : List α} {f g : α → ℚ} (h : ∀ a ∈ l, f a ≤ g a) {c d : ℚ}
    (hcd : c ≤ d) : l.foldl (fun sum a => sum + f a) c ≤ l.foldl (fun sum a => sum + g a) d := by
  induction l generalizing c d with
  | nil => exact hcd
  | cons a l ih =>
      rw [List.forall_mem_cons] at h
      exact ih h.2 (add_le_add hcd h.1)

theorem measureRetrieval_noWorse {golden : GoldenSet .retrieval RetrievalCase}
    (htop : 1 ≤ topK) {answers answers' : Option (List (Str × RetrievalAnswer))}
    (h : Option.Rel (RanksNoWorse golden.cases) answers answers') :
    (measureRetrieval exact golden answers topK).NoWorse
      (measureRetrieval exact golden answers' topK) := by
  cases h with
  | none => exact .refl _
  | @some recorded recorded' h =>
      unfold measureRetrieval
      by_cases hcases : golden.cases = []
      · simp only [if_pos hcases]
        exact .refl _
      · have hpos : (0 : ℚ) ≤ golden.cases.length := Nat.cast_nonneg _
        -- A hit is a reciprocal that is high enough, and that has not become lower.
        have hhits : (golden.cases.countP fun case =>
              hitAt (retrievedFor recorded case).1 case.expected topK) ≤
            golden.cases.countP fun case =>
              hitAt (retrievedFor recorded' case).1 case.expected topK := by
          refine List.countP_mono_left fun case hcase hhit => ?_
          rw [hitAt_iff htop] at hhit ⊢
          exact hhit.trans (h case hcase).1
        have hranks := sum_le_foldl (fun case hcase => (h case hcase).1) (le_refl (0 : ℚ))
        have hresolved : ((golden.cases.map fun case =>
              citationCounts (retrievedFor recorded case).1 (retrievedFor recorded case).2).map
                Prod.fst).sum ≤
            ((golden.cases.map fun case =>
              citationCounts (retrievedFor recorded' case).1 (retrievedFor recorded' case).2).map
                Prod.fst).sum := by
          rw [List.map_map, List.map_map]
          refine List.sum_le_sum fun case hcase => ?_
          rcases h case hcase with ⟨_, hcited, hstill⟩
          simp only [Function.comp_apply, citationCounts, hcited]
          exact List.countP_mono_left hstill
        have hcited : ((golden.cases.map fun case =>
              citationCounts (retrievedFor recorded' case).1 (retrievedFor recorded' case).2).map
                Prod.snd).sum =
            ((golden.cases.map fun case =>
              citationCounts (retrievedFor recorded case).1 (retrievedFor recorded case).2).map
                Prod.snd).sum := by
          rw [List.map_map, List.map_map]
          refine congrArg List.sum (List.map_congr_left fun case hcase => ?_)
          simp only [Function.comp_apply, citationCounts, (h case hcase).2.1]
        simp only [if_neg hcases]
        refine ⟨rfl, rfl, rfl, rfl, ?_⟩
        have hrates : NotLowered
            [(text "retrieval.hit_rate", exact.float ((golden.cases.countP fun case =>
                hitAt (retrievedFor recorded case).1 case.expected topK : Nat) /
                  golden.cases.length)),
              (text "retrieval.mrr", exact.float (golden.cases.foldl (fun ranks case =>
                exact.float (ranks + reciprocalRank exact (retrievedFor recorded case).1
                  case.expected)) 0 / golden.cases.length))]
            [(text "retrieval.hit_rate", exact.float ((golden.cases.countP fun case =>
                hitAt (retrievedFor recorded' case).1 case.expected topK : Nat) /
                  golden.cases.length)),
              (text "retrieval.mrr", exact.float (golden.cases.foldl (fun ranks case =>
                exact.float (ranks + reciprocalRank exact (retrievedFor recorded' case).1
                  case.expected)) 0 / golden.cases.length))] :=
          .cons ⟨rfl, div_le_div_of_nonneg_right (Nat.cast_le.mpr hhits) hpos⟩
            (.cons ⟨rfl, div_le_div_of_nonneg_right hranks hpos⟩ .nil)
        simp only [scored, hcited]
        split
        · exact hrates
        · refine hrates.append (.cons ⟨rfl, ?_⟩ .nil)
          exact div_le_div_of_nonneg_right (Nat.cast_le.mpr hresolved) (Nat.cast_nonneg _)

theorem measureClassification_noWorse {golden : GoldenSet .classification ClassificationCase}
    {answers answers' : Option (List (Str × ClassificationAnswer))} {m : Measurement}
    (h : Option.Rel (BandsNoWorse golden.cases) answers answers')
    (hm : measureClassification exact golden answers = .ok m) :
    ∃ m', measureClassification exact golden answers' = .ok m' ∧ m.NoWorse m' := by
  cases h with
  | none => exact ⟨m, hm, .refl m⟩
  | @some recorded recorded' h =>
      have hscores : ∀ positive, scoresOf recorded' golden.cases positive =
          scoresOf recorded golden.cases positive := by
        intro positive
        unfold scoresOf
        refine List.filterMap_congr fun case hcase => ?_
        have hsame := congrArg (Option.map some) (h case (List.mem_of_mem_filter hcase)).2.2
        rw [Option.map_map, Option.map_map] at hsame
        exact hsame
      have hrouting : (golden.cases.countP fun case =>
            (recorded.lookup case.caseId).map ClassificationAnswer.queue = some case.queue) ≤
          golden.cases.countP fun case =>
            (recorded'.lookup case.caseId).map ClassificationAnswer.queue = some case.queue := by
        refine List.countP_mono_left fun case hcase hright => ?_
        rw [decide_eq_true_eq] at hright ⊢
        rcases (h case hcase).2.1 with hsame | hqueue
        · rw [hsame]
          exact hright
        · exact hqueue
      have hrisk := labelCounts_noBetter fun case hcase => (h case hcase).1 .fraudRisk
      have hseverity := labelCounts_noBetter fun case hcase => (h case hcase).1 .severity
      unfold measureClassification at hm ⊢
      by_cases hcases : golden.cases = []
      · rw [if_pos hcases] at hm ⊢
        exact ⟨m, hm, .refl m⟩
      · rw [if_neg hcases] at hm ⊢
        simp only [hscores]
        cases hcurve : averagePrecision exact (scoresOf recorded golden.cases true)
            (scoresOf recorded golden.cases false) with
        | error e =>
            simp only [hcurve] at hm
            cases hm
        | ok curve =>
            simp only [hcurve] at hm
            cases hm
            refine ⟨_, rfl, rfl, rfl, rfl, rfl, ?_⟩
            -- The curve is the same, and nothing before it is lower.
            refine NotLowered.append (((axisMetrics_notLowered hrisk).append
              (axisMetrics_notLowered hseverity)).append (.cons ⟨rfl, ?_⟩ .nil)) (.refl _)
            exact div_le_div_of_nonneg_right (Nat.cast_le.mpr hrouting) (Nat.cast_nonneg _)

/-- Answers that are no worse are measured, and nothing measured is lower. -/
theorem measure_noWorse {answers answers' : Answers} {ms : List Measurement} (htop : 1 ≤ topK)
    (h : answers.NoWorse compare sets answers')
    (hms : measure exact compare sets answers topK = .ok ms) :
    ∃ ms', measure exact compare sets answers' topK = .ok ms' ∧
      List.Forall₂ Measurement.NoWorse ms ms' := by
  unfold measure at hms ⊢
  rcases Failing.bind_eq_ok.mp hms with ⟨m, hm, hlist⟩
  cases hlist
  rcases measureClassification_noWorse h.classification hm with ⟨m', hm', hno⟩
  refine ⟨_, Failing.bind_eq_ok.mpr ⟨m', hm', rfl⟩, ?_⟩
  exact .cons (measureExtraction_noWorse h.extraction)
    (.cons (measureRetrieval_noWorse htop h.retrieval) (.cons hno .nil))

end Measure

/-! ### A run -/

section Run

variable {V : Type} {F : Formats V} {compare}

/-- What is measured under the names of what is recorded, and no lower, is recorded
    too. -/
theorem exists_recorded_of_noWorse {sets : Sets} {answers answers' : Answers} {topK : Nat}
    {ms ms' : List Measurement} {tag : Str} {settings : Settings} {b : Baseline}
    (hms : measure exact compare sets answers topK = .ok ms)
    (hms' : measure exact compare sets answers' topK = .ok ms')
    (h : List.Forall₂ Measurement.NoWorse ms ms')
    (hb : recorded exact tag sets ms settings = .ok b) :
    ∃ b', recorded exact tag sets ms' settings = .ok b' := by
  have htag : tag ≠ [] := (recorded_eq_ok hb).1 ▸ b.tag_ne_nil
  have hmeasurable : ∀ e ∈ recordedMetrics exact ms', Measurable e.1 e.2 := by
    rintro ⟨name, w⟩ he
    rcases (mem_recordedMetrics (measured_of_measure hms')).mp he with
      ⟨m', hm', hscored, v, hv, rfl⟩
    rcases Ordered.exists_mem_of_forall₂ h.flip hm' with ⟨m, hm, hno⟩
    -- The name was recorded before, under another value.
    have hname : name ∈ m.metrics.map Prod.fst := by
      rw [← hno.metrics.keys]
      exact List.mem_map_of_mem (f := Prod.fst) hv
    rcases List.mem_map.mp hname with ⟨⟨n, v₀⟩, hv₀, rfl⟩
    have hrecorded : (n, exact.float (Rounding.rounded 6 v₀)) ∈ b.metrics := by
      rw [(recorded_eq_ok hb).2.2.1]
      exact (mem_recordedMetrics (measured_of_measure hms)).mpr
        ⟨m, hm, hno.reading ▸ hscored, v₀, hv₀, rfl⟩
    exact ⟨(b.measurable _ hrecorded).1,
      proportion_rounded (proportion_of_measure hms' m' hm' (n, v) hv)⟩
  unfold recorded
  simp only [dif_pos (And.intro htag hmeasurable)]
  exact ⟨_, rfl⟩

/-- A run exits with success when it has judged and passed and, if it is to record, has
    something to record and somewhere to write it. -/
theorem main_eq_zero_iff {A : Arithmetic} {args : Arguments} {file : BaselineFile} :
    (main F A compare args file).1 = .ok 0 ↔
      ∃ j, outcomeOf F A compare args file = .ok j ∧ j.outcome.Passed ∧
        (args.record = true → ∃ b file', recorded A j.tag j.sets j.measurements args.settings =
          .ok b ∧ writeBaseline file b = .ok file') := by
  have hmain : (main F A compare args file).1 = .ok 0 ↔
      ∃ file', run F A compare args file = .ok (0, file') := by
    unfold main
    cases run F A compare args file with
    | ok r => simp only [Except.ok.injEq, Prod.ext_iff, exists_and_left, exists_eq', and_true]
    | error e =>
        refine ⟨fun h => ?_, by rintro ⟨_, ⟨⟩⟩⟩
        cases e <;> cases h
  rw [hmain]
  unfold run
  simp only [Failing.bind_eq_ok]
  constructor
  · rintro ⟨file', j, hj, hrest⟩
    refine ⟨j, hj, ?_⟩
    split at hrest
    · rename_i hrecord
      simp only [Failing.bind_eq_ok] at hrest
      rcases hrest with ⟨b, hb, written, hwritten, _⟩
      exact ⟨hrecord.2, fun _ => ⟨b, written, hb, hwritten⟩⟩
    · rename_i hrecord
      have hstatus : statusOf j.outcome = 0 := congrArg Prod.fst (Except.ok.inj hrest)
      have hpassed := statusOf_eq_zero_iff.mp hstatus
      exact ⟨hpassed, fun h => absurd ⟨h, hpassed⟩ hrecord⟩
  · rintro ⟨j, hj, hpassed, hrecords⟩
    have hstatus := statusOf_eq_zero_iff.mpr hpassed
    by_cases hrecord : args.record = true
    · rcases hrecords hrecord with ⟨b, written, hb, hwritten⟩
      refine ⟨written, j, hj, ?_⟩
      rw [if_pos ⟨hrecord, hpassed⟩]
      simp only [Failing.bind_eq_ok]
      exact ⟨b, hb, written, hwritten, hstatus ▸ rfl⟩
    · refine ⟨file, j, hj, ?_⟩
      rw [if_neg fun h => hrecord h.1, hstatus]
      rfl

/-- A run that passes goes on passing when other answers are given to it that are no
    worse, whether or not it records. -/
theorem main_of_noWorse {args : Arguments} {predictions : Option Folder} {file : BaselineFile}
    (hanswers : ∀ sets answers, readSets F.loads F.repr F.sets args.sets = .ok sets →
      answersOf F args sets = .ok answers →
      ∃ answers', answersOf F { args with predictions := predictions } sets = .ok answers' ∧
        answers.NoWorse compare sets answers')
    (h : (main F exact compare args file).1 = .ok 0) :
    (main F exact compare { args with predictions := predictions } file).1 = .ok 0 := by
  rw [main_eq_zero_iff] at h ⊢
  rcases h with ⟨j, hj, hpassed, hrecords⟩
  rcases outcomeOf_eq_ok hj with
    ⟨answers, hsets, hrules, hread, hms, htag, hbaseline, houtcome⟩
  rcases hanswers j.sets answers hsets hread with ⟨answers', hread', hno⟩
  rcases measure_noWorse args.topK_pos hno hms with ⟨ms', hms', hmeasured⟩
  refine ⟨⟨j.sets, j.rules, ms', j.tag, j.baseline,
    judge exact ms' j.baseline j.rules args.settings⟩, ?_, ?_, fun hrecord => ?_⟩
  · -- Nothing that is read but the answers is read from elsewhere.
    unfold outcomeOf
    simp only [Failing.bind_eq_ok]
    exact ⟨j.sets, hsets, j.rules, hrules, answers', hread', ms', hms', j.tag, htag, j.baseline,
      hbaseline, rfl⟩
  · rw [houtcome] at hpassed
    exact passed_of_noWorse hmeasured hpassed
  · rcases hrecords hrecord with ⟨b, written, hb, hwritten⟩
    rcases exists_recorded_of_noWorse hms hms' hmeasured hb with ⟨b', hb'⟩
    cases file with
    | directory => cases hwritten
    | file _ | absent => exact ⟨b', _, hb', rfl⟩

end Run

section Example

theorem theClause_expected : [theClause] ≠ [] :=
  List.cons_ne_nil theClause []

/-- A case of the example's set. -/
def sampleQuestion (id : Str) : RetrievalCase :=
  ⟨id, text "q", .newYear, text "p", [theClause], theClause_expected⟩

/-- What the example's sets are read as. -/
def sampleGolden : Sets where
  extraction := ⟨1, text "sample", [], sampleSets.join (setFile .extraction), Nat.one_pos⟩
  retrieval := ⟨1, text "sample", [sampleQuestion (text "a"), sampleQuestion (text "b")],
    sampleSets.join (setFile .retrieval), Nat.one_pos⟩
  classification := ⟨1, text "sample", [], sampleSets.join (setFile .classification), Nat.one_pos⟩

/-- What its answers are, right or wrong. -/
def sampleAnswers (a b : Bool) : Answers where
  extraction := none
  retrieval := some [(text "a", ⟨if a then [theClause] else [], []⟩),
    (text "b", ⟨if b then [theClause] else [], []⟩)]
  classification := none

set_option maxRecDepth 100000 in
theorem readSets_sample :
    readSets sampleFormats.loads sampleFormats.repr sampleFormats.sets sampleSets =
      .ok sampleGolden := by
  rfl

set_option maxRecDepth 100000 in
theorem answersOf_one : answersOf sampleFormats (sampleRun true false) sampleGolden =
    .ok (sampleAnswers true false) := by
  rfl

set_option maxRecDepth 100000 in
theorem answersOf_both : answersOf sampleFormats
    { sampleRun true false with predictions := (sampleRun true true).predictions } sampleGolden =
    .ok (sampleAnswers true true) := by
  rfl

theorem ranksNoWorse_both : RanksNoWorse sampleGolden.retrieval.cases
    [(text "a", ⟨[theClause], []⟩), (text "b", ⟨[], []⟩)]
    [(text "a", ⟨[theClause], []⟩), (text "b", ⟨[theClause], []⟩)] := by
  decide +kernel

set_option maxRecDepth 100000 in
theorem passes_one :
    (main sampleFormats exact sampleCompare (sampleRun true false) .absent).1 = .ok 0 := by
  decide +kernel

set_option maxRecDepth 100000 in
/-- A run with one right answer passes where nothing is recorded, and so does one with
    both right. -/
theorem main_of_noWorse_second :
    (main sampleFormats exact sampleCompare (sampleRun true false) .absent).1 = .ok 0 ∧
      (main sampleFormats exact sampleCompare
        { sampleRun true false with predictions := (sampleRun true true).predictions } .absent).1 =
        .ok 0 := by
  refine ⟨passes_one, main_of_noWorse (fun sets answers hread hanswers => ?_) passes_one⟩
  cases readSets_sample.symm.trans hread
  cases answersOf_one.symm.trans hanswers
  exact ⟨_, answersOf_both, .none, .some ranksNoWorse_both, .none⟩

end Example

end Evaluation

end ClaimTriage
