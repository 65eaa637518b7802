import ClaimTriage.Evaluation.Gate
import ClaimTriage.Theory.Except

/-!
# The Runner

What a run does, in order: read the sets and the rules, ask, measure, read the
baseline, judge, and record where it was asked to. The status it exits with
says which of three things happened: nothing fired, a rule did, or the run
could not be made. Only a refusal of the readers is turned into the last; what
else is raised leaves the run with a status that says a rule fired.

A run is a function of what it reads and of the baseline file, and answers with
its status and with what is in that file after it.

## Main definitions

* `Formats`: How lines are parsed and become models.
* `Arguments`: What a run was made with.
* `recorded`: A tag's baseline, as a run measured it.
* `baselineOf`: The baseline to judge against.
* `outcomeOf`: What a run judges, up to its outcome.
* `main`: A run, its status and what it leaves in the baseline file.

## Theorems

* `outcomeOf_eq_ok`: What a run has judged is what it read.
* `main_cases`: A run leaves the file as it was, or has judged, passed and recorded.
* `main_of_record`: What a recording run does.
-/

namespace ClaimTriage

namespace Evaluation

open Theory Text Numeral

/-- How lines of JSON are parsed, how a text is shown, and which parsed values are
    which models. -/
structure Formats (V : Type) where
  loads : Str → Loaded V
  repr : Str → Str
  sets : SetModels V
  answers : AnswerModels V

/-- The file a baseline is in: what its text is to the model. -/
abbrev BaselineFile := Entry (Read (Except Str Baseline))

/-- The options a run was made with, the material they name as it stands when it
    is read, and the version the distribution declares, or why there is none. -/
structure Arguments where
  sets : Folder
  rulesPath : Str
  rules : Entry (Read (Except Str Rules))
  predictions : Option Folder
  baseline : Option Str
  tag : Option Str
  record : Bool
  topK : Nat
  topK_pos : 1 ≤ topK
  distribution : Except Str Str

/-- What a run was measured under. -/
def Arguments.settings (args : Arguments) : Settings :=
  ⟨args.topK, args.topK_pos⟩

/-- The tag a run is about: the one named, or this build's. -/
def tagOf (args : Arguments) : Except Raised Str :=
  match args.tag with
  | some tag => .ok tag
  | none =>
      match args.distribution with
      | .ok version => .ok (text "v" ++ version)
      | .error notInstalled => .error (.unreadable
          (text "the release tag comes from the installed claim-triage-agent distribution: " ++
            notInstalled))

/-- Where the baseline of a tag is: the file named, or the tag's own. -/
def destination (args : Arguments) (tag : Str) : Str :=
  args.baseline.getD (text "evaluation/baselines/" ++ tag ++ text ".json")

section Run

variable {V : Type} (F : Formats V) (A : Arithmetic) (compare : Scalar → Scalar → Bool)

/-- The metrics a run records: those of the capabilities that were scored, to six
    decimals. -/
def recordedMetrics (ms : List Measurement) : List (Str × ℚ) :=
  Dict.ofList ((ms.filter fun m => m.reading = .scored).flatMap fun m =>
    m.metrics.map fun e => (e.1, A.float (Rounding.rounded 6 e.2)))

/-- A tag's baseline, as a run measured it, unless the model refuses it. -/
def recorded (tag : Str) (sets : Sets) (ms : List Measurement) (settings : Settings) :
    Except Raised Baseline :=
  let metrics := recordedMetrics A ms
  if h : tag ≠ [] ∧ ∀ e ∈ metrics, Measurable e.1 e.2 then
    .ok {
      tag := tag
      settings := settings
      sets := fun c => ⟨sets.version c, sets.held c, sets.version_pos c⟩
      metrics := metrics
      tag_ne_nil := h.1
      nodup := Dict.nodup_keys_ofList _
      measurable := h.2 }
  else .error .validationError

/-- A tag nothing has been recorded for yet. -/
def unrecorded (tag : Str) (sets : Sets) (settings : Settings) : Except Raised Baseline :=
  recorded A tag sets [] settings

/-- The baseline to judge against. A tag nothing has been recorded for is refused
    unless the run is recording one. -/
def baselineOf (args : Arguments) (tag : Str) (sets : Sets) (file : BaselineFile) :
    Except Raised Baseline := do
  let path := destination args tag
  if ¬ file.IsFile then
    if ¬ args.record then
      throw (.unreadable (text "nothing was recorded for " ++ F.repr tag ++ text " at " ++ path ++
        text "; --record writes one"))
    unrecorded A tag sets args.settings
  else
    let baseline ← document (text "a baseline") path file
    if args.baseline = none ∧ baseline.tag ≠ tag then
      throw (.unreadable (path ++ text " records " ++ F.repr baseline.tag ++ text ", not " ++
        F.repr tag))
    if args.record ∧ baseline.tag ≠ tag then
      throw (.unreadable (path ++ text " records " ++ F.repr baseline.tag ++
        text " where this run records " ++ F.repr tag))
    return baseline

/-- What a run has judged: the sets it scored, what it measured, for which tag,
    against which baseline, under which rules, and the outcome. -/
structure Judged where
  sets : Sets
  rules : Rules
  measurements : List Measurement
  tag : Str
  baseline : Baseline
  outcome : Outcome

/-- A run's answers: recorded ones, or the build's. -/
def answersOf (args : Arguments) (sets : Sets) : Except Raised Answers :=
  match args.predictions with
  | some predictions => readAnswers F.loads F.repr F.answers predictions sets
  | none => .ok answersFromBuild

/-- Read, ask, measure and judge. -/
def outcomeOf (args : Arguments) (file : BaselineFile) : Except Raised Judged := do
  let sets ← readSets F.loads F.repr F.sets args.sets
  let rules ← document (text "the declared rules") args.rulesPath args.rules
  let answers ← answersOf F args sets
  let measurements ← measure A compare sets answers args.topK
  let tag ← tagOf args
  let baseline ← baselineOf F A args tag sets file
  return {
    sets := sets
    rules := rules
    measurements := measurements
    tag := tag
    baseline := baseline
    outcome := judge A measurements baseline rules args.settings }

/-- The status of a run that was judged. -/
def statusOf (outcome : Outcome) : Nat :=
  if outcome.Passed then 0 else 1

/-- Write a baseline where its file is. -/
def writeBaseline (file : BaselineFile) (baseline : Baseline) : Except Raised BaselineFile :=
  match file with
  | .directory => .error .osError
  | .file _ | .absent => .ok (.file (.ok (.ok baseline)))

/-- A run: its status, and what is in the baseline file after it. -/
def run (args : Arguments) (file : BaselineFile) : Except Raised (Nat × BaselineFile) := do
  let judged ← outcomeOf F A compare args file
  -- A run that broke a rule is not recorded.
  if args.record ∧ judged.outcome.Passed then
    let baseline ← recorded A judged.tag judged.sets judged.measurements args.settings
    let written ← writeBaseline file baseline
    return (statusOf judged.outcome, written)
  else
    return (statusOf judged.outcome, file)

/-- A run as its caller sees it. A refusal is a status of its own; anything else
    that is raised is not caught. Nothing is written before the last thing that
    can be raised. -/
def main (args : Arguments) (file : BaselineFile) : Except Raised Nat × BaselineFile :=
  match run F A compare args file with
  | .ok (status, file') => (.ok status, file')
  | .error (.unreadable _) => (.ok 2, file)
  | .error e => (.error e, file)

variable {F} {A} {compare}

theorem statusOf_eq_zero_iff {outcome : Outcome} : statusOf outcome = 0 ↔ outcome.Passed := by
  unfold statusOf
  by_cases h : outcome.Passed
  · rw [if_pos h]
    exact ⟨fun _ => h, fun _ => rfl⟩
  · rw [if_neg h]
    exact ⟨nofun, fun hp => absurd hp h⟩

/-- What a run has judged is what it read, and against that baseline. -/
theorem outcomeOf_eq_ok {args : Arguments} {file : BaselineFile} {j : Judged}
    (h : outcomeOf F A compare args file = .ok j) :
    ∃ answers, readSets F.loads F.repr F.sets args.sets = .ok j.sets ∧
      document (text "the declared rules") args.rulesPath args.rules = .ok j.rules ∧
      answersOf F args j.sets = .ok answers ∧
      measure A compare j.sets answers args.topK = .ok j.measurements ∧
      tagOf args = .ok j.tag ∧
      baselineOf F A args j.tag j.sets file = .ok j.baseline ∧
      j.outcome = judge A j.measurements j.baseline j.rules args.settings := by
  unfold outcomeOf at h
  simp only [Failing.bind_eq_ok] at h
  rcases h with ⟨sets, hsets, rules, hrules, answers, hanswers, ms, hms, tag, htag, baseline,
    hbaseline, hj⟩
  cases hj
  exact ⟨answers, hsets, hrules, hanswers, hms, htag, hbaseline, rfl⟩

theorem writeBaseline_eq_ok {file file' : BaselineFile} {b : Baseline}
    (h : writeBaseline file b = .ok file') : file' = .file (.ok (.ok b)) := by
  cases file with
  | directory => cases h
  | file _ | absent =>
      cases h
      rfl

/-- What a run that ends with a status has done: it has judged, and if it was to
    record and passed, it has recorded. -/
theorem run_eq_ok {args : Arguments} {file : BaselineFile} {r : Nat × BaselineFile}
    (h : run F A compare args file = .ok r) :
    ∃ j, outcomeOf F A compare args file = .ok j ∧
      ((args.record = true ∧ j.outcome.Passed ∧ ∃ b,
        recorded A j.tag j.sets j.measurements args.settings = .ok b ∧
          r = (0, .file (.ok (.ok b)))) ∨
      (¬ (args.record = true ∧ j.outcome.Passed) ∧ r = (statusOf j.outcome, file))) := by
  unfold run at h
  rcases Failing.bind_eq_ok.mp h with ⟨j, hj, hrest⟩
  refine ⟨j, hj, ?_⟩
  split at hrest
  · -- Only a run that records and has passed writes anything.
    rename_i hrecord
    rcases Failing.bind_eq_ok.mp hrest with ⟨b, hb, hwrite⟩
    rcases Failing.bind_eq_ok.mp hwrite with ⟨file', hfile', hr⟩
    cases hr
    refine Or.inl ⟨hrecord.1, hrecord.2, b, hb, ?_⟩
    rw [writeBaseline_eq_ok hfile', statusOf_eq_zero_iff.mpr hrecord.2]
  · rename_i hrecord
    cases hrest
    exact Or.inr ⟨hrecord, rfl⟩

variable (F) (A) (compare) in
/-- A run either leaves the baseline file as it was, or has judged, passed and
    recorded what it measured, and its status says so. -/
theorem main_cases (args : Arguments) (file : BaselineFile) :
    ((main F A compare args file).2 = file ∧
      (args.record = true → (main F A compare args file).1 ≠ .ok 0)) ∨
    ((main F A compare args file).2 = file ∧ args.record = false) ∨
    ∃ j b, outcomeOf F A compare args file = .ok j ∧ args.record = true ∧ j.outcome.Passed ∧
      recorded A j.tag j.sets j.measurements args.settings = .ok b ∧
      main F A compare args file = (.ok 0, .file (.ok (.ok b))) := by
  cases hrun : run F A compare args file with
  | error e =>
      -- What was raised comes to no status, or to that of a refusal.
      have hmain : main F A compare args file = (.ok 2, file) ∨
          main F A compare args file = (.error e, file) := by
        unfold main
        rw [hrun]
        cases e <;> first | exact Or.inl rfl | exact Or.inr rfl
      refine Or.inl ?_
      rcases hmain with h | h
      · rw [h]
        exact ⟨rfl, fun _ => nofun⟩
      · rw [h]
        exact ⟨rfl, fun _ => nofun⟩
  | ok r =>
      have hmain : main F A compare args file = (.ok r.1, r.2) := by
        unfold main
        rw [hrun]
      rcases run_eq_ok hrun with ⟨j, hj, ⟨hrecord, hpassed, b, hb, hr⟩ | ⟨hrecord, hr⟩⟩
      · refine Or.inr (Or.inr ⟨j, b, hj, hrecord, hpassed, hb, ?_⟩)
        rw [hmain, hr]
      · rw [hmain, hr]
        cases hargs : args.record with
        | false => exact Or.inr (Or.inl ⟨rfl, rfl⟩)
        -- A recording run that did not pass says so in its status.
        | true =>
            refine Or.inl ⟨rfl, fun _ h => hrecord ⟨hargs, ?_⟩⟩
            exact statusOf_eq_zero_iff.mp (Except.ok.inj h)

variable (F) (A) (compare) in
/-- A recording run that does not exit with success leaves the baseline file
    exactly as it was, and one that does has recorded what it measured. -/
theorem main_of_record {args : Arguments} (hrecord : args.record = true) (file : BaselineFile) :
    ((main F A compare args file).1 ≠ .ok 0 ∧ (main F A compare args file).2 = file) ∨
    ∃ j b, outcomeOf F A compare args file = .ok j ∧ j.outcome.Passed ∧
      recorded A j.tag j.sets j.measurements args.settings = .ok b ∧
      main F A compare args file = (.ok 0, .file (.ok (.ok b))) := by
  rcases main_cases F A compare args file with
    ⟨hfile, hstatus⟩ | ⟨_, hnot⟩ | ⟨j, b, hj, _, hpassed, hb, hmain⟩
  · exact Or.inl ⟨hstatus hrecord, hfile⟩
  · rw [hrecord] at hnot
    cases hnot
  · exact Or.inr ⟨j, b, hj, hpassed, hb, hmain⟩

end Run

end Evaluation

end ClaimTriage
