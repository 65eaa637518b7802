import ClaimTriage.Evaluation.Runner

/-!
# The Record of a Tag

What a baseline file comes to hold over any sequence of runs. Each run is judged
against the file as it stands, so what a sequence of them does is the question.

The evidence in it does not shrink (`grown_of_runs`): names are not lost, sets do
not lose cases, and the question, once something is recorded for it, stays the
one it was. The values are another matter. A run that passes replaces them by its
own, as far below them as the tolerance allows, and the next is judged against
the lower ones: what several runs take from a metric is the sum of what each of
them takes, and nothing bounds that but how many of them lower it
(`fallen_le_lowered`). Where one does at most, the metric stays within what one
comparison allows (`barHeld_of_runs`).

## Main definitions

* `after`: The baseline file after a list of runs.
* `contents`: What a baseline file records.
* `Grown`: One baseline file records no less than another.
* `recordedValue`: What a baseline file records for a metric.
* `measuredValue`: What a run measures for a metric.
* `fallen`: What runs take from a metric.
* `lowered`: How many of them take something from it.
* `BarHeld`: No metric is recorded too far below its first value.

## Theorems

* `mem_recordedMetrics`: What a run records is what it measured, rounded.
* `grown_main`: A run does not shrink what is recorded.
* `grown_of_runs`: No sequence of runs does.
* `fallen_le_lowered`: Each run that lowers a metric takes the tolerance at most.
* `barHeld_of_runs`: One run that lowers a metric leaves it within the tolerance
  of its first value.
-/

namespace ClaimTriage

namespace Evaluation

open Theory Text

section Runs

variable {V : Type} (F : Formats V) (A : Arithmetic) (compare : Scalar → Scalar → Bool)

/-- The baseline file after a list of runs, one after the other. -/
def after (file : BaselineFile) (runs : List Arguments) : BaselineFile :=
  runs.foldl (fun file args => (main F A compare args file).2) file

/-- What a baseline file records. -/
def contents : BaselineFile → Option Baseline
  | .file (.ok (.ok b)) => some b
  | _ => none

/-- The second baseline file records no less than the first: it is of the same
    tag, of all its metrics and of no fewer cases, and once a metric is recorded
    it is of the same question. -/
def Grown (file file' : BaselineFile) : Prop :=
  ∀ b ∈ contents file, ∃ b' ∈ contents file',
    b'.tag = b.tag ∧
    (∀ name ∈ b.metrics.map Prod.fst, name ∈ b'.metrics.map Prod.fst) ∧
    (∀ c, (b.sets c).cases ≤ (b'.sets c).cases) ∧
    (b.metrics ≠ [] →
      b'.settings = b.settings ∧ ∀ c, (b'.sets c).version = (b.sets c).version)

theorem grown_refl (file : BaselineFile) : Grown file file :=
  fun b hb => ⟨b, hb, rfl, fun _ h => h, fun _ => le_refl _, fun _ => ⟨rfl, fun _ => rfl⟩⟩

theorem Grown.trans {file₁ file₂ file₃ : BaselineFile} (h : Grown file₁ file₂)
    (h' : Grown file₂ file₃) : Grown file₁ file₃ := by
  intro b hb
  rcases h b hb with ⟨b₂, hb₂, htag₂, hnames₂, hcases₂, hquestion₂⟩
  rcases h' b₂ hb₂ with ⟨b₃, hb₃, htag₃, hnames₃, hcases₃, hquestion₃⟩
  refine ⟨b₃, hb₃, htag₃.trans htag₂, fun name hname => hnames₃ name (hnames₂ name hname),
    fun c => (hcases₂ c).trans (hcases₃ c), fun hne => ?_⟩
  -- A metric recorded in the first is recorded in the second.
  have hne₂ : b₂.metrics ≠ [] := by
    rcases List.exists_mem_of_ne_nil _ hne with ⟨e, he⟩
    have hmem := hnames₂ e.1 (List.mem_map_of_mem he)
    rintro hnil
    rw [hnil] at hmem
    exact absurd hmem List.not_mem_nil
  rcases hquestion₂ hne with ⟨hsettings₂, hversions₂⟩
  rcases hquestion₃ hne₂ with ⟨hsettings₃, hversions₃⟩
  exact ⟨hsettings₃.trans hsettings₂, fun c => (hversions₃ c).trans (hversions₂ c)⟩

variable {F} {A} {compare}

/-- What a run measures is as a run takes its measurements. -/
theorem measured_of_measure {sets : Sets} {answers : Answers} {topK : Nat} {ms : List Measurement}
    (h : measure A compare sets answers topK = .ok ms) : Measured ms := by
  rcases measure_ok h with ⟨hcapabilities, hof⟩
  exact ⟨hcapabilities ▸ List.Perm.refl _, fun m hm => (hof m hm).owned,
    fun m hm => (hof m hm).nodup⟩

theorem nodup_scored {ms : List Measurement} (hms : Measured ms) :
    ((((ms.filter fun m => m.reading = .scored).flatMap fun m =>
      m.metrics.map fun e => (e.1, A.float (Rounding.rounded 6 e.2)))).map Prod.fst).Nodup := by
  rw [List.map_flatMap, List.nodup_flatMap]
  have hkeys : ∀ m : Measurement,
      (m.metrics.map fun e => (e.1, A.float (Rounding.rounded 6 e.2))).map Prod.fst =
        m.metrics.map Prod.fst := by
    intro m
    rw [List.map_map]
    rfl
  have hdistinct : (ms.map Measurement.capability).Nodup :=
    hms.capabilities.nodup_iff.mpr (by decide)
  constructor
  · intro m hm
    rw [hkeys]
    exact hms.nodup m (List.mem_of_mem_filter hm)
  · -- Two capabilities share no name.
    refine List.Pairwise.imp_of_mem ?_ ((List.pairwise_map.mp hdistinct).filter _)
    intro m n hm hn hne
    simp only [Function.onFun, hkeys]
    rintro name hname hname'
    exact hne (owns_inj (hms.owned m (List.mem_of_mem_filter hm) name hname)
      (hms.owned n (List.mem_of_mem_filter hn) name hname'))

/-- What a run records is what it measured where it scored, rounded. -/
theorem mem_recordedMetrics {ms : List Measurement} (hms : Measured ms) {name : Str} {w : ℚ} :
    (name, w) ∈ recordedMetrics A ms ↔ ∃ m ∈ ms, m.reading = .scored ∧
      ∃ v, (name, v) ∈ m.metrics ∧ w = A.float (Rounding.rounded 6 v) := by
  unfold recordedMetrics
  rw [Dict.ofList_eq_self (nodup_scored hms), List.mem_flatMap]
  constructor
  · rintro ⟨m, hm, hmem⟩
    rcases List.mem_filter.mp hm with ⟨hm, hscored⟩
    rcases List.mem_map.mp hmem with ⟨⟨n, v⟩, hv, heq⟩
    cases heq
    exact ⟨m, hm, of_decide_eq_true hscored, v, hv, rfl⟩
  · rintro ⟨m, hm, hscored, v, hv, rfl⟩
    exact ⟨m, List.mem_filter.mpr ⟨hm, decide_eq_true hscored⟩,
      List.mem_map.mpr ⟨(name, v), hv, rfl⟩⟩

/-- A recorded baseline is of the run's tag, sets and settings. -/
theorem recorded_eq_ok {tag : Str} {sets : Sets} {ms : List Measurement} {settings : Settings}
    {b : Baseline} (h : recorded A tag sets ms settings = .ok b) :
    b.tag = tag ∧ b.settings = settings ∧ b.metrics = recordedMetrics A ms ∧
      ∀ c, (b.sets c).version = sets.version c ∧ (b.sets c).cases = sets.held c := by
  unfold recorded at h
  simp only at h
  split at h
  · cases h
    exact ⟨rfl, rfl, rfl, fun _ => ⟨rfl, rfl⟩⟩
  · cases h

theorem contents_eq_some {file : BaselineFile} {b : Baseline} (h : contents file = some b) :
    file = .file (.ok (.ok b)) := by
  cases file with
  | absent | directory => cases h
  | file content =>
      cases content with
      | error why => cases h
      | ok read =>
          cases read with
          | error wrong => cases h
          | ok b' =>
              cases h
              rfl

/-- A run that records is judged against what the file records, of its own
    tag. -/
theorem baselineOf_eq_ok {args : Arguments} {tag : Str} {sets : Sets} {file : BaselineFile}
    {b b' : Baseline} (hrecord : args.record = true) (hfile : contents file = some b)
    (h : baselineOf F A args tag sets file = .ok b') : b' = b ∧ b.tag = tag := by
  rw [contents_eq_some hfile] at h
  unfold baselineOf at h
  simp only [Entry.IsFile, not_true_eq_false, if_false] at h
  rcases Failing.bind_eq_ok.mp h with ⟨read, hread, hrest⟩
  have heq : read = b := (Except.ok.inj hread).symm
  subst heq
  split at hrest
  · cases hrest
  · split at hrest
    · cases hrest
    · rename_i htag
      cases hrest
      exact ⟨rfl, not_not.mp fun hne => htag ⟨hrecord, hne⟩⟩

/-- A run that records does so for its own tag and question, and what it has
    passed against is still recorded. -/
theorem grown_recorded {args : Arguments} {file : BaselineFile} {j : Judged} {b' : Baseline}
    (hrecord : args.record = true) (hj : outcomeOf F A compare args file = .ok j)
    (hpassed : j.outcome.Passed)
    (hb' : recorded A j.tag j.sets j.measurements args.settings = .ok b') :
    Grown file (.file (.ok (.ok b'))) := by
  intro b hb
  rcases outcomeOf_eq_ok hj with ⟨answers, _, _, _, hms, _, hbaseline, houtcome⟩
  -- The run was judged against the file it writes over.
  rcases baselineOf_eq_ok hrecord hb hbaseline with ⟨hjb, htag⟩
  rcases recorded_eq_ok hb' with ⟨htag', hsettings', hmetrics', hsets'⟩
  have hmeasured := measured_of_measure hms
  have hof := (measure_ok hms).2
  rw [houtcome, hjb] at hpassed
  rcases (passed_iff_failuresOf.mp hpassed) with ⟨hcomparable, hkept⟩
  simp only [failuresOf_eq_nil_iff] at hkept
  refine ⟨b', rfl, htag'.trans htag.symm, fun name hname => ?_, fun c => ?_, fun hne => ?_⟩
  · -- A recorded metric is measured, and only what scored measures anything.
    rcases exists_mem_names b hmeasured (Or.inr hname) with ⟨m, hm, _, hmem⟩
    rcases (hkept m hm).2 name hmem with ⟨v, hv, _⟩
    have hvm : (name, v) ∈ m.metrics := (Dict.lookup_eq_some_iff (hmeasured.nodup m hm)).mp hv
    rw [hmetrics']
    exact List.mem_map_of_mem (f := Prod.fst) ((mem_recordedMetrics hmeasured).mpr
      ⟨m, hm, (hof m hm).reading (List.ne_nil_of_mem hvm), v, hvm, rfl⟩)
  · rcases exists_measurement hmeasured c with ⟨m, hm, rfl⟩
    rw [(hsets' m.capability).2, ← (hof m hm).cases]
    exact (hkept m hm).1
  · rcases hcomparable with hnil | ⟨hsettings, hversions⟩
    · exact absurd hnil hne
    · -- A baseline with metrics was recorded in the same settings, over the same sets.
      refine ⟨hsettings'.trans hsettings.symm, fun c => ?_⟩
      rcases exists_measurement hmeasured c with ⟨m, hm, rfl⟩
      rw [(hsets' m.capability).1, ← (hof m hm).version]
      exact hversions m hm

variable (F) (A) (compare) in
/-- A run does not shrink what is recorded. -/
theorem grown_main (args : Arguments) (file : BaselineFile) :
    Grown file (main F A compare args file).2 := by
  rcases main_cases F A compare args file with
    ⟨hfile, _⟩ | ⟨hfile, _⟩ | ⟨j, b, hj, hrecord, hpassed, hb, hmain⟩
  · rw [hfile]
    exact grown_refl file
  · rw [hfile]
    exact grown_refl file
  · rw [hmain]
    exact grown_recorded hrecord hj hpassed hb

theorem after_append (file : BaselineFile) (runs runs' : List Arguments) :
    after F A compare file (runs ++ runs') =
      after F A compare (after F A compare file runs) runs' :=
  List.foldl_append

theorem grown_after (file : BaselineFile) (runs : List Arguments) :
    Grown file (after F A compare file runs) := by
  induction runs generalizing file with
  | nil => exact grown_refl file
  | cons args runs ih => exact (grown_main F A compare args file).trans (ih _)

variable (F) (A) (compare) in
/-- No sequence of runs against one baseline file shrinks what it records, from
    any point of the sequence to any later one; and a run that does not exit with
    success leaves the file exactly as it was. -/
theorem grown_of_runs (file : BaselineFile) (runs : List Arguments) :
    (∀ pre mid post, runs = pre ++ mid ++ post →
      Grown (after F A compare file pre) (after F A compare file (pre ++ mid))) ∧
    ∀ pre args post, runs = pre ++ args :: post →
      (main F A compare args (after F A compare file pre)).1 ≠ .ok 0 →
      after F A compare file (pre ++ [args]) = after F A compare file pre := by
  refine ⟨fun pre mid _ _ => ?_, fun pre args _ _ hstatus => ?_⟩
  · rw [after_append]
    exact grown_after _ mid
  · rw [after_append]
    change (main F A compare args (after F A compare file pre)).2 = _
    rcases main_cases F A compare args (after F A compare file pre) with
      ⟨hfile, _⟩ | ⟨hfile, _⟩ | ⟨_, _, _, _, _, _, hmain⟩
    · exact hfile
    · exact hfile
    · rw [hmain] at hstatus
      exact absurd rfl hstatus

/-- What a baseline file records for a metric. -/
def recordedValue (file : BaselineFile) (name : Str) : Option ℚ :=
  (contents file).bind fun b => b.metrics.lookup name

variable (F) (A) (compare) in
/-- What a run measures, of the material it was made with. -/
def measurementsOf (args : Arguments) : Except Raised (List Measurement) := do
  let sets ← readSets F.loads F.repr F.sets args.sets
  let answers ← answersOf F args sets
  measure A compare sets answers args.topK

variable (F) (A) (compare) in
/-- What a run measures for a metric. -/
def measuredValue (args : Arguments) (name : Str) : Option ℚ :=
  match measurementsOf F A compare args with
  | .ok ms => ms.findSome? fun m => m.metrics.lookup name
  | .error _ => none

variable (F) (A) (compare) in
/-- What runs take from a metric, one after the other: how far each measures it,
    to six decimals, below what is recorded when it is made. What a run adds to
    it counts against that. -/
def fallen (name : Str) (file : BaselineFile) : List Arguments → ℚ
  | [] => 0
  | args :: rest =>
      ((recordedValue file name).getD 0 -
        A.float (Rounding.rounded 6 ((measuredValue F A compare args name).getD 0))) +
      fallen name (main F A compare args file).2 rest

/-- Half a unit of the sixth decimal of each of two recorded values. -/
def slack : ℚ :=
  1 / 10 ^ 6

variable (F) (A) (compare) in
/-- Runs that record for one tag under one rules file, each of which exits with
    success. -/
def Records (tag : Str) (rules : Rules) (file : BaselineFile) (runs : List Arguments) : Prop :=
  ∀ pre args post, runs = pre ++ args :: post →
    args.record = true ∧ tagOf args = .ok tag ∧ args.rules = .file (.ok (.ok rules)) ∧
      (main F A compare args (after F A compare file pre)).1 = .ok 0

variable (F) (A) (compare) in
/-- A metric is recorded for the first time, after these of the runs and with this
    value. -/
def FirstRecorded (name : Str) (file : BaselineFile) (pre : List Arguments) (v : ℚ) : Prop :=
  recordedValue (after F A compare file pre) name = some v ∧
    ∀ earlier args later, pre = earlier ++ args :: later →
      recordedValue (after F A compare file earlier) name = none

theorem value_of_measured {ms : List Measurement} (hms : Measured ms) {name : Str} {v : ℚ} :
    (ms.findSome? fun m => m.metrics.lookup name) = some v ↔ ∃ m ∈ ms, (name, v) ∈ m.metrics := by
  have hin : ∀ w, (ms.findSome? fun m => m.metrics.lookup name) = some w →
      ∃ m ∈ ms, (name, w) ∈ m.metrics := by
    intro w hw
    rcases List.exists_of_findSome?_eq_some hw with ⟨m, hm, hlookup⟩
    exact ⟨m, hm, (Dict.lookup_eq_some_iff (hms.nodup m hm)).mp hlookup⟩
  refine ⟨hin v, ?_⟩
  rintro ⟨m, hm, hv⟩
  cases hfind : ms.findSome? fun m => m.metrics.lookup name with
  | none =>
      have hnone := List.findSome?_eq_none_iff.mp hfind m hm
      rw [(Dict.lookup_eq_some_iff (hms.nodup m hm)).mpr hv] at hnone
      cases hnone
  | some w =>
      -- Only one capability has the name, so this is the same value.
      rcases hin w hfind with ⟨n, hn, hw⟩
      have hnm : n = m := eq_of_capability hms hn hm (owns_inj
        (hms.owned n hn name (List.mem_map_of_mem (f := Prod.fst) hw))
        (hms.owned m hm name (List.mem_map_of_mem (f := Prod.fst) hv)))
      subst hnm
      rw [← (Dict.lookup_eq_some_iff (hms.nodup n hm)).mpr hv]
      exact ((Dict.lookup_eq_some_iff (hms.nodup n hm)).mpr hw).symm

/-- What a run that has judged measures is what it judged. -/
theorem measuredValue_of_outcome {args : Arguments} {file : BaselineFile} {j : Judged}
    (hj : outcomeOf F A compare args file = .ok j) {name : Str} {v : ℚ} :
    measuredValue F A compare args name = some v ↔ ∃ m ∈ j.measurements, (name, v) ∈ m.metrics := by
  rcases outcomeOf_eq_ok hj with ⟨answers, hsets, _, hanswers, hms, _, _, _⟩
  have hmeasurements : measurementsOf F A compare args = .ok j.measurements := by
    unfold measurementsOf
    rw [hsets]
    simp only [Failing.bind_eq_ok, Except.ok.injEq, exists_eq_left']
    exact ⟨answers, hanswers, hms⟩
  unfold measuredValue
  rw [hmeasurements]
  exact value_of_measured (measured_of_measure hms)

/-- A run that records leaves what it measured, to six decimals, for every metric
    it measured. -/
theorem recordedValue_main {args : Arguments} {file : BaselineFile}
    (hrecord : args.record = true) (hstatus : (main F A compare args file).1 = .ok 0) (name : Str) :
    recordedValue (main F A compare args file).2 name =
      (measuredValue F A compare args name).map fun v => A.float (Rounding.rounded 6 v) := by
  rcases main_of_record F A compare hrecord file with
    ⟨hne, _⟩ | ⟨j, b, hj, _, hb, hmain⟩
  · exact absurd hstatus hne
  · rcases outcomeOf_eq_ok hj with ⟨answers, _, _, _, hms, _, _, _⟩
    have hmeasured := measured_of_measure hms
    have hof := (measure_ok hms).2
    have hrecorded : recordedValue (main F A compare args file).2 name =
        (recordedMetrics A j.measurements).lookup name := by
      -- The file holds what the run measured, rounded once more.
      rw [hmain, ← (recorded_eq_ok hb).2.2.1]
      rfl
    have hnodup : ((recordedMetrics A j.measurements).map Prod.fst).Nodup :=
      Dict.nodup_keys_ofList _
    rw [hrecorded]
    ext w
    rw [Dict.lookup_eq_some_iff hnodup, mem_recordedMetrics hmeasured, Option.map_eq_some_iff]
    simp only [measuredValue_of_outcome hj]
    constructor
    · rintro ⟨m, hm, _, v, hv, rfl⟩
      exact ⟨v, ⟨m, hm, hv⟩, rfl⟩
    · rintro ⟨v, ⟨m, hm, hv⟩, rfl⟩
      exact ⟨m, hm, (hof m hm).reading (List.ne_nil_of_mem hv), v, hv, rfl⟩

theorem recordedValue_isSome_iff {file : BaselineFile} {name : Str} :
    (recordedValue file name).isSome ↔ ∃ b ∈ contents file, name ∈ b.metrics.map Prod.fst := by
  unfold recordedValue
  cases contents file with
  | none => exact ⟨nofun, fun ⟨_, h, _⟩ => absurd h (Option.not_mem_none _)⟩
  | some b =>
      simp only [Option.bind_some, Option.mem_some_iff, exists_eq_left']
      exact Dict.lookup_isSome_iff

variable (F) (A) (compare) in
/-- A metric that is recorded stays so. -/
theorem exists_recordedValue_main {file : BaselineFile} {name : Str} {v : ℚ}
    (h : recordedValue file name = some v) (args : Arguments) :
    ∃ w, recordedValue (main F A compare args file).2 name = some w := by
  have hsome : (recordedValue file name).isSome := by
    rw [h]
    rfl
  rcases recordedValue_isSome_iff.mp hsome with ⟨b, hb, hname⟩
  rcases grown_main F A compare args file b hb with
    ⟨b', hb', _, hnames, _⟩
  exact Option.isSome_iff_exists.mp (recordedValue_isSome_iff.mpr ⟨b', hb', hnames name hname⟩)

theorem records_nil {tag : Str} {rules : Rules} {file : BaselineFile} :
    Records F A compare tag rules file [] := by
  intro pre args post hsplit
  exact absurd hsplit.symm (List.append_ne_nil_of_right_ne_nil _ (List.cons_ne_nil _ _))

theorem records_cons {tag : Str} {rules : Rules} {file : BaselineFile} {args : Arguments}
    {runs : List Arguments}
    (hargs : args.record = true ∧ tagOf args = .ok tag ∧ args.rules = .file (.ok (.ok rules)) ∧
      (main F A compare args file).1 = .ok 0)
    (hruns : Records F A compare tag rules (main F A compare args file).2 runs) :
    Records F A compare tag rules file (args :: runs) := by
  intro pre other post hsplit
  cases pre with
  | nil =>
      cases hsplit
      exact hargs
  | cons first pre =>
      cases hsplit
      exact hruns pre other post rfl

theorem Records.tail {tag : Str} {rules : Rules} {file : BaselineFile} {args : Arguments}
    {runs : List Arguments} (h : Records F A compare tag rules file (args :: runs)) :
    Records F A compare tag rules (main F A compare args file).2 runs := by
  intro pre other post hsplit
  have hother := h (args :: pre) other post (by rw [hsplit, List.cons_append])
  exact hother

theorem Records.drop {tag : Str} {rules : Rules} {file : BaselineFile} {pre post : List Arguments}
    (h : Records F A compare tag rules file (pre ++ post)) :
    Records F A compare tag rules (after F A compare file pre) post := by
  intro before args rest hsplit
  have hargs := h (pre ++ before) args rest (by rw [hsplit, List.append_assoc])
  rw [after_append] at hargs
  exact hargs

/-- What is recorded for a metric after runs is what was before, less what they
    took from it. -/
theorem recordedValue_after {tag : Str} {rules : Rules} {file : BaselineFile}
    {runs : List Arguments} (h : Records F A compare tag rules file runs) {name : Str} {v : ℚ}
    (hv : recordedValue file name = some v) :
    recordedValue (after F A compare file runs) name =
      some (v - fallen F A compare name file runs) := by
  induction runs generalizing file v with
  | nil =>
      unfold after fallen
      rw [sub_zero]
      exact hv
  -- What is left after the first run is what the others lose from there.
  | cons args runs ih =>
      have hargs := h [] args runs rfl
      rcases exists_recordedValue_main F A compare hv args with ⟨w, hw⟩
      have hmeasured : recordedValue (main F A compare args file).2 name = _ :=
        recordedValue_main hargs.1 hargs.2.2.2 name
      rw [hw] at hmeasured
      rcases Option.map_eq_some_iff.mp hmeasured.symm with ⟨m, hm, hmw⟩
      have hrest : recordedValue (after F A compare file (args :: runs)) name =
          some (w - fallen F A compare name (main F A compare args file).2 runs) :=
        ih h.tail hw
      have hfallen : fallen F A compare name file (args :: runs) =
          v - w + fallen F A compare name (main F A compare args file).2 runs := by
        change (recordedValue file name).getD 0 - A.float (Rounding.rounded 6
          ((measuredValue F A compare args name).getD 0)) + _ = _
        rw [hv, hm, Option.getD_some, Option.getD_some, hmw]
      rw [hrest, hfallen]
      congr 1
      ring

/-- In exact arithmetic one run takes from a metric no more than the tolerance,
    up to rounding. -/
theorem fallen_le_of_exact {tag : Str} {rules : Rules} {t : ℚ} (ht : rules.tolerance = some t)
    {file : BaselineFile} {args : Arguments} (h : Records F exact compare tag rules file [args])
    {name : Str} {v : ℚ} (hv : recordedValue file name = some v) :
    fallen F exact compare name file [args] ≤ t + slack := by
  rcases h [] args [] rfl with ⟨hrecord, _, hrules, hstatus⟩
  rcases main_of_record F exact compare hrecord file with
    ⟨hne, _⟩ | ⟨j, b', hj, hpassed, _, _⟩
  · exact absurd hstatus hne
  · rcases outcomeOf_eq_ok hj with ⟨answers, _, hreadRules, _, hms, _, hbaseline, houtcome⟩
    have hmeasured := measured_of_measure hms
    have hjrules : j.rules = rules := by
      rw [hrules] at hreadRules
      exact (Except.ok.inj hreadRules).symm
    -- The metric is judged against what is recorded for it, and has not fallen.
    rcases Option.bind_eq_some_iff.mp hv with ⟨b, hb, hlookup⟩
    rcases baselineOf_eq_ok hrecord hb hbaseline with ⟨hjb, _⟩
    rw [houtcome, hjb, hjrules, passed_iff_failuresOf] at hpassed
    have hname : name ∈ b.metrics.map Prod.fst :=
      Dict.lookup_isSome_iff.mp (by rw [hlookup]; rfl)
    rcases exists_mem_names b hmeasured (Or.inr hname) with ⟨m, hm, howns, hmem⟩
    rcases (failuresOf_eq_nil_iff.mp (hpassed.2 m hm)).2 name hmem with ⟨w, hw, _, hfallen⟩
    have hwm : (name, w) ∈ m.metrics := (Dict.lookup_eq_some_iff (hmeasured.nodup m hm)).mp hw
    rw [lookup_metricsOf howns, hlookup, ht] at hfallen
    have hle : Rounding.rounded 9 (v - w) ≤ t :=
      not_lt.mp fun hlt => hfallen ⟨v, rfl, hlt⟩
    -- The fall is rounded before it is judged, and the value before it is recorded.
    have hnine := abs_le.mp (Rounding.abs_rounded_sub_le 9 (v - w))
    have hsix := abs_le.mp (Rounding.abs_rounded_sub_le 6 w)
    have hvalue : measuredValue F exact compare args name = some w :=
      (measuredValue_of_outcome hj).mpr ⟨m, hm, hwm⟩
    unfold fallen fallen slack
    rw [hv, hvalue, Option.getD_some, Option.getD_some]
    change v - Rounding.rounded 6 w + 0 ≤ t + 1 / 10 ^ 6
    norm_num at hnine hsix ⊢
    linarith

variable (F) (A) (compare) in
/-- How many of these runs measure a metric, to six decimals, below what is
    recorded for it when they are made. -/
def lowered (name : Str) (file : BaselineFile) : List Arguments → Nat
  | [] => 0
  | args :: rest =>
      (if 0 < fallen F A compare name file [args] then 1 else 0) +
        lowered name (main F A compare args file).2 rest

theorem fallen_cons (name : Str) (file : BaselineFile) (args : Arguments) (runs : List Arguments) :
    fallen F A compare name file (args :: runs) =
      fallen F A compare name file [args] +
        fallen F A compare name (main F A compare args file).2 runs := by
  change _ + _ = (_ + (0 : ℚ)) + _
  rw [add_zero]

/-- In exact arithmetic runs take from a metric no more than the tolerance for
    each of them that lowers it. -/
theorem fallen_le_lowered {tag : Str} {rules : Rules} {t : ℚ} (ht : rules.tolerance = some t)
    {file : BaselineFile} {runs : List Arguments}
    (h : Records F exact compare tag rules file runs) {name : Str} {v : ℚ}
    (hv : recordedValue file name = some v) :
    fallen F exact compare name file runs ≤
      lowered F exact compare name file runs * (t + slack) := by
  induction runs generalizing file v with
  | nil =>
      change (0 : ℚ) ≤ ((0 : Nat) : ℚ) * (t + slack)
      rw [Nat.cast_zero, zero_mul]
  | cons args runs ih =>
      rcases exists_recordedValue_main F exact compare hv args with
        ⟨w, hw⟩
      have hrest := ih h.tail hw
      have hone : Records F exact compare tag rules file [args] :=
        records_cons (h [] args runs rfl) records_nil
      rw [fallen_cons]
      unfold lowered
      -- A run that does not lower the metric takes nothing from it.
      by_cases hlowers : 0 < fallen F exact compare name file [args]
      · have hstep := fallen_le_of_exact ht hone hv
        rw [if_pos hlowers]
        push_cast
        linarith
      · have hstep := not_lt.mp hlowers
        rw [if_neg hlowers]
        push_cast
        linarith

theorem lowered_le_length (name : Str) (file : BaselineFile) (runs : List Arguments) :
    lowered F A compare name file runs ≤ runs.length := by
  induction runs generalizing file with
  | nil => exact le_refl 0
  | cons args runs ih =>
      have hrest := ih (main F A compare args file).2
      unfold lowered
      rw [List.length_cons]
      split <;> omega

variable (F) (A) (compare) in
/-- No metric is recorded, after these runs, at more than the tolerance below the
    value first recorded for it. -/
def BarHeld (t : ℚ) (file : BaselineFile) (runs : List Arguments) : Prop :=
  ∀ name pre post v w, runs = pre ++ post → FirstRecorded F A compare name file pre v →
    recordedValue (after F A compare file runs) name = some w → v - (t + slack) ≤ w

variable (F) (A) (compare) in
/-- Of the runs after a metric is first recorded, so many at most lower it. -/
def LoweredAtMost (n : Nat) (file : BaselineFile) (runs : List Arguments) : Prop :=
  ∀ name pre post v, runs = pre ++ post → FirstRecorded F A compare name file pre v →
    lowered F A compare name (after F A compare file pre) post ≤ n

variable (F) (compare) in
/-- After runs that record for one tag under one rules file, every metric is
    recorded at most the tolerance below the value first recorded for it, if at
    most one of the runs since then measured it below what was recorded when that
    run was made. -/
theorem barHeld_of_runs {tag : Str} {rules : Rules} {file : BaselineFile} {runs : List Arguments}
    (hruns : Records F exact compare tag rules file runs)
    (hone : LoweredAtMost F exact compare 1 file runs) :
    ∀ t ∈ rules.tolerance, BarHeld F exact compare t file runs := by
  intro t ht name pre post v w hsplit hfirst hw
  have hle := hone name pre post v hsplit hfirst
  subst hsplit
  have hfallen := fallen_le_lowered ht hruns.drop hfirst.1
  -- The metric ends where it was first recorded, less what it lost since.
  have hend : recordedValue (after F exact compare file (pre ++ post)) name =
      some (v - fallen F exact compare name (after F exact compare file pre) post) := by
    rw [after_append]
    exact recordedValue_after hruns.drop hfirst.1
  have hpos : 0 ≤ t + slack := by
    -- A tolerance is never negative, so neither is what one run may take.
    have htolerance := (rules.bounded t ht).1
    unfold slack
    linarith [show (0 : ℚ) ≤ 1 / 10 ^ 6 by norm_num]
  have hcount : (lowered F exact compare name (after F exact compare file pre) post : ℚ) ≤ 1 := by
    exact_mod_cast hle
  have hlost : fallen F exact compare name (after F exact compare file pre) post ≤ t + slack :=
    calc fallen F exact compare name (after F exact compare file pre) post
        ≤ lowered F exact compare name (after F exact compare file pre) post * (t + slack) :=
          hfallen
      _ ≤ 1 * (t + slack) := mul_le_mul_of_nonneg_right hcount hpos
      _ = t + slack := one_mul _
  have heq := Option.some.inj (hend.symm.trans hw)
  linarith

end Runs

section Example

/-- What the lines of the example are parsed to. -/
inductive SampleValue where
  | header (capability : Capability)
  | question (id : Str)
  | recorded (id : Str) (right : Bool)
  | retrieved (right : Bool)

/-- A set's header. -/
def headerLine (c : Capability) : Str :=
  text "\x7b\"capability\": \"" ++ c.value ++
    text "\", \"version\": 1, \"description\": \"sample\"\x7d\n"

/-- A case that expects one clause. -/
def questionLine (id : Str) : Str :=
  text "\x7b\"case_id\": \"" ++ id ++
    text "\", \"question\": \"q\", \"incident_date\": \"2026-01-01\", \"product_family\": \"p\"," ++
    text " \"expected\": [\x7b\"clause_id\": \"1\", \"edition\": \"1\"\x7d]\x7d\n"

/-- An answer that retrieved that clause, or nothing. -/
def answerLine (id : Str) (right : Bool) : Str :=
  text "\x7b\"case_id\": \"" ++ id ++ text "\", \"answer\": \x7b\"retrieved\": [" ++
    (if right then text "\x7b\"clause_id\": \"1\", \"edition\": \"1\"\x7d" else []) ++
    text "]\x7d\x7d\n"

/-- The one clause there is. -/
def theClause : ClauseRef :=
  ⟨text "1", text "1", none, page_pos_none⟩

/-- The lines of the example and what they are parsed to. -/
def sampleLines : List (Str × SampleValue) :=
  (capabilities.map fun c => (strip (headerLine c), .header c)) ++
  ([text "a", text "b"].map fun id => (strip (questionLine id), .question id)) ++
  ([text "a", text "b"].flatMap fun id => [true, false].map fun right =>
    (strip (answerLine id right), .recorded id right))

/-- A model that takes some of these values. -/
def sampleModel {α : Type} (name : String) (take : SampleValue → Option α) :
    Model SampleValue α where
  name := text name
  validate v := match take v with
    | some a => .ok a
    | none => .error (text "Field required")

/-- How these lines become models. -/
def sampleFormats : Formats SampleValue where
  loads line := match sampleLines.lookup line with
    | some v => .value v
    | none => .malformed (text "Expecting value: line 1 column 1 (char 0)")
  repr s := text "'" ++ s ++ text "'"
  sets :=
    { header := sampleModel "SetHeader" fun v => match v with
        | .header c => some ⟨c, 1, text "sample", Nat.one_pos⟩
        | _ => none
      extraction := sampleModel "ExtractionCase" fun _ => none
      retrieval := sampleModel "RetrievalCase" fun v => match v with
        | .question id => some ⟨id, text "q", .newYear,
            text "p", [theClause], List.cons_ne_nil _ _⟩
        | _ => none
      classification := sampleModel "ClassificationCase" fun _ => none }
  answers :=
    { recorded := sampleModel "RecordedAnswer" fun v => match v with
        | .recorded id right => some ⟨id, .retrieved right⟩
        | _ => none
      extraction := sampleModel "ExtractionAnswer" fun _ => none
      retrieval := sampleModel "RetrievalAnswer" fun v => match v with
        | .retrieved right => some ⟨if right then [theClause] else [], []⟩
        | _ => none
      classification := sampleModel "ClassificationAnswer" fun _ => none }

/-- Two retrieval cases, and no others. -/
def sampleSets : Folder where
  path := text "golden"
  entries :=
    [(setFile .extraction, .file (.ok (headerLine .extraction))),
      (setFile .retrieval, .file (.ok (headerLine .retrieval ++ questionLine (text "a") ++
        questionLine (text "b")))),
      (setFile .classification, .file (.ok (headerLine .classification)))]

/-- A tolerance of a half. -/
def halfRules : Rules where
  tolerance := some (1 / 2)
  floors := [(citationValidity, 98 / 100)]
  bounded := by decide +kernel
  nodup := twoPoints.nodup
  measurable := twoPoints.measurable
  declared := twoPoints.declared

/-- A run that records, its two answers right or wrong. -/
def sampleRun (a b : Bool) : Arguments where
  sets := sampleSets
  rulesPath := text "gate.json"
  rules := .file (.ok (.ok halfRules))
  predictions := some ⟨text "predictions",
    [(setFile .retrieval, .file (.ok (answerLine (text "a") a ++ answerLine (text "b") b)))]⟩
  baseline := some (text "baseline.json")
  tag := some (text "v1")
  record := true
  topK := 5
  topK_pos := Nat.succ_pos 4
  distribution := .ok (text "1")

/-- Scalars agree where they are equal. -/
def sampleCompare (a b : Scalar) : Bool :=
  a = b

/-- Three runs that record, one right answer fewer at each. -/
def sampleRuns : List Arguments :=
  [sampleRun true true, sampleRun true false, sampleRun false false]

/-- The first of them passes where nothing is recorded. -/
theorem passes_first :
    (main sampleFormats exact sampleCompare (sampleRun true true) .absent).1 = .ok 0 := by
  decide +kernel

/-- And the second after it. -/
theorem passes_second :
    (main sampleFormats exact sampleCompare (sampleRun true false)
      (main sampleFormats exact sampleCompare (sampleRun true true) .absent).2).1 = .ok 0 := by
  decide +kernel

theorem records_sampleRuns :
    Records sampleFormats exact sampleCompare (text "v1") halfRules .absent sampleRuns := by
  refine records_cons ⟨rfl, rfl, rfl, passes_first⟩ ?_
  refine records_cons ⟨rfl, rfl, rfl, passes_second⟩ ?_
  exact records_cons ⟨rfl, rfl, rfl, by decide +kernel⟩ records_nil

/-- The first two of them leave it no lower than the tolerance allows: only one
    comes after it was recorded. -/
theorem barHeld_sampleRuns_two :
    BarHeld sampleFormats exact sampleCompare (1 / 2) .absent
      [sampleRun true true, sampleRun true false] := by
  have hruns : Records sampleFormats exact sampleCompare (text "v1") halfRules .absent
      [sampleRun true true, sampleRun true false] := by
    refine records_cons ⟨rfl, rfl, rfl, passes_first⟩ ?_
    exact records_cons ⟨rfl, rfl, rfl, passes_second⟩ records_nil
  refine barHeld_of_runs sampleFormats sampleCompare hruns ?_ (1 / 2) rfl
  intro name pre post v hsplit hfirst
  cases pre with
  | nil => exact absurd hfirst.1 nofun
  | cons first pre =>
      have hlength : post.length ≤ 1 := by
        have htotal := congrArg List.length hsplit
        simp only [List.length_cons, List.length_nil, List.length_append] at htotal
        omega
      exact (lowered_le_length name _ post).trans hlength

/-- Each of them passes, and they take the mean reciprocal rank from one to
    nothing where the tolerance is a half. -/
theorem not_barHeld_sampleRuns :
    Records sampleFormats exact sampleCompare (text "v1") halfRules .absent sampleRuns ∧
      ¬ BarHeld sampleFormats exact sampleCompare (1 / 2) .absent sampleRuns := by
  refine ⟨records_sampleRuns, fun h => ?_⟩
  have hfirst : FirstRecorded sampleFormats exact sampleCompare (text "retrieval.mrr") .absent
      [sampleRun true true] 1 := by
    -- The first recording is the one that sets the metric.
    refine ⟨by decide +kernel, fun earlier args later hsplit => ?_⟩
    cases earlier with
    | nil => rfl
    | cons first earlier =>
        cases hsplit_tail : earlier with
        | nil =>
            rw [hsplit_tail] at hsplit
            cases hsplit
        | cons second rest =>
            rw [hsplit_tail] at hsplit
            cases hsplit
  have hlast : recordedValue (after sampleFormats exact sampleCompare .absent sampleRuns)
      (text "retrieval.mrr") = some 0 := by decide +kernel
  have hle := h (text "retrieval.mrr") [sampleRun true true]
    [sampleRun true false, sampleRun false false] 1 0 rfl hfirst hlast
  unfold slack at hle
  norm_num at hle

end Example

end Evaluation

end ClaimTriage
