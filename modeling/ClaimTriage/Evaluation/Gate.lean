import ClaimTriage.Evaluation.Scoring
import ClaimTriage.Theory.Dict

/-!
# The Gate

The recorded baselines, the declared rules, and the verdicts they produce for
one run's measurements. A run fails where a metric fell by more than the
tolerance, is below its floor, or was recorded and is gone; where a set lost
cases; and where the baseline was asked another question, in which case nothing
is compared.

Verdicts and failures are computed apart from each other, capability by
capability. `bad_verdict_iff` is that they agree on each metric, and
`passed_iff` what that comes to for the metrics as a whole: when a run passes,
and that no metric falls between two capabilities.

A tolerance is a number from zero to one or, as with a fraud score, the one
that is on neither side of a bound; nothing falls by more than that one.

## Main definitions

* `Baseline`: One release tag's measurements.
* `Rules`: The gate's thresholds.
* `Failure`: A rule that fired, and the line it fires with.
* `Regressed`: A metric fell by more than the tolerance.
* `judge`: A run's measurements against a baseline, under the rules.
* `Comparable`: The baseline was asked this run's question.

## Theorems

* `otherQuestion_eq_none_iff`: When a baseline is comparable.
* `failures_eq_nil_iff`: When a metric breaks no rule.
* `line_names`: A failure's line names what it is about.
* `passed_iff`: When a run passes, and what its rows say.
-/

namespace ClaimTriage

namespace Evaluation

open Theory Text Numeral

/-- The metric that carries an absolute floor. -/
def citationValidity : Str :=
  text "retrieval.citation_validity"

/-- What a run was measured under. -/
structure Settings where
  topK : Nat
  topK_pos : 1 ≤ topK
  deriving DecidableEq

/-- One set as it was at the tag: its version, and how many cases it held. -/
structure SetRecord where
  version : Nat
  cases : Nat
  version_pos : 1 ≤ version
  deriving DecidableEq

/-- One release tag's measurements: what every capability scored, and on
    what. -/
structure Baseline where
  tag : Str
  settings : Settings
  sets : Capability → SetRecord
  metrics : List (Str × ℚ)
  tag_ne_nil : tag ≠ []
  nodup : (metrics.map Prod.fst).Nodup
  measurable : ∀ e ∈ metrics, Measurable e.1 e.2

/-- The gate's thresholds. No tolerance stands for the one that is not a
    number. -/
structure Rules where
  tolerance : Option ℚ
  floors : List (Str × ℚ)
  bounded : ∀ t ∈ tolerance, 0 ≤ t ∧ t ≤ 1
  nodup : (floors.map Prod.fst).Nodup
  measurable : ∀ e ∈ floors, Measurable e.1 e.2
  declared : citationValidity ∈ floors.map Prod.fst

/-- Every way a run can fail. -/
inductive Rule where
  | degradation
  | floor
  | coverage
  | comparability
  deriving DecidableEq

/-- The name a rule goes by. -/
def Rule.value : Rule → Str
  | degradation => text "degradation"
  | floor => text "floor"
  | coverage => text "coverage"
  | comparability => text "comparability"

/-- One row of the table: what the rules made of one metric of one
    capability. -/
inductive RowVerdict where
  | ok
  | adopted
  | regressed
  | belowFloor
  | notMeasured
  | noCases
  | notImplemented
  | incomparable
  deriving DecidableEq

/-- A verdict that goes with a failure. -/
def RowVerdict.Bad (v : RowVerdict) : Prop :=
  v = regressed ∨ v = belowFloor ∨ v = notMeasured

/-- One line of the metric table: what was measured, against what, and the
    verdict on it. -/
structure Row where
  capability : Capability
  metric : Option Str
  cases : Nat
  answered : Nat
  value : Option ℚ
  baseline : Option ℚ
  delta : Option ℚ
  verdict : RowVerdict

/-- A rule that fired, and what it fired about. -/
inductive Failure where
  | settings (recorded run : Nat)
  | versions (other : List (Capability × Nat × Nat))
  | cases (capability : Capability) (held recorded : Nat)
  | unmeasured (metric : Str) (recorded : ℚ)
  | belowFloor (metric : Str) (value floor : ℚ)
  | fell (metric : Str) (value recorded : ℚ) (tolerance : Option ℚ)

/-- The rule that fired. -/
def Failure.rule : Failure → Rule
  | settings _ _ | versions _ => .comparability
  | cases _ _ _ | unmeasured _ _ => .coverage
  | belowFloor _ _ _ => .floor
  | fell _ _ _ _ => .degradation

/-- The metric it fired about. -/
def Failure.metric : Failure → Option Str
  | settings _ _ | versions _ | cases _ _ _ => none
  | unmeasured metric _ | belowFloor metric _ _ | fell metric _ _ _ => some metric

/-- A case count as a line writes it. -/
def casesText (count : Nat) : Str :=
  decimal count ++ if count = 1 then text " case" else text " cases"

section Judge

variable (A : Arithmetic)

/-- Points with two places, of a number that may be none. -/
def pointsText : Option ℚ → Str
  | none => text "nan"
  | some q => Rounding.fixed 2 (A.float (q * 100))

/-- The line a failure is reported with: the rule, and what it found. -/
def Failure.line : Failure → Str
  | settings recorded run =>
      Rule.comparability.value ++ text ": " ++ text "the baseline was recorded at top_k=" ++
        decimal recorded ++ text " and this run is top_k=" ++ decimal run
  | versions other =>
      Rule.comparability.value ++ text ": " ++ text "the baseline records " ++
        joined (text ", ") (other.map fun o => o.1.value ++ text " v" ++ decimal o.2.1) ++
        text ", and this run scores " ++
        joined (text ", ") (other.map fun o => o.1.value ++ text " v" ++ decimal o.2.2)
  | cases capability held recorded =>
      Rule.coverage.value ++ text ": " ++ capability.value ++ text " holds " ++ casesText held ++
        text " where the baseline records " ++ decimal recorded
  | unmeasured metric recorded =>
      Rule.coverage.value ++ text ": " ++ metric ++ text " was recorded at " ++
        Rounding.fixed 4 recorded ++ text " and this run did not measure it"
  | belowFloor metric value floor =>
      Rule.floor.value ++ text ": " ++ metric ++ text " is " ++ Rounding.fixed 4 value ++
        text ", below its floor " ++ Rounding.fixed 4 floor
  | fell metric value recorded tolerance =>
      Rule.degradation.value ++ text ": " ++ metric ++ text " fell " ++
        Rounding.fixed 2 (A.float (A.float (recorded - value) * 100)) ++ text " points to " ++
        Rounding.fixed 4 value ++ text ", from " ++ Rounding.fixed 4 recorded ++
        text " (tolerance " ++ pointsText A tolerance ++ text ")"

/-- Whether a metric fell by more than the tolerance: the drop is rounded to nine
    decimals before it is compared. -/
def Regressed (value atBaseline : ℚ) : Option ℚ → Prop
  -- Nothing is more than what is not a number.
  | none => False
  | some tolerance => tolerance < A.float (Rounding.rounded 9 (A.float (atBaseline - value)))

instance (value atBaseline : ℚ) (tolerance : Option ℚ) :
    Decidable (Regressed A value atBaseline tolerance) :=
  match tolerance with
  | none => isFalse id
  | some _ => inferInstanceAs (Decidable (_ < _))

/-- A metric is below its floor, if it has one. -/
def Below (value : ℚ) (floor : Option ℚ) : Prop :=
  ∃ f ∈ floor, value < f

instance (value : ℚ) (floor : Option ℚ) : Decidable (Below value floor) :=
  match floor with
  | none => isFalse fun ⟨f, h, _⟩ => absurd h (Option.not_mem_none f)
  | some f => decidable_of_iff (value < f)
      ⟨fun h => ⟨f, rfl, h⟩, fun ⟨_, hf, h⟩ => Option.mem_some_iff.mp hf ▸ h⟩

/-- A metric fell below what the baseline records for it, if it does. -/
def Fallen (value : ℚ) (atBaseline : Option ℚ) (tolerance : Option ℚ) : Prop :=
  ∃ b ∈ atBaseline, Regressed A value b tolerance

instance (value : ℚ) (atBaseline tolerance : Option ℚ) :
    Decidable (Fallen A value atBaseline tolerance) :=
  match atBaseline with
  | none => isFalse fun ⟨b, h, _⟩ => absurd h (Option.not_mem_none b)
  | some b => decidable_of_iff (Regressed A value b tolerance)
      ⟨fun h => ⟨b, rfl, h⟩, fun ⟨_, hb, h⟩ => Option.mem_some_iff.mp hb ▸ h⟩

/-- What one metric's numbers make of it: the floor first, because it needs no
    baseline. -/
def verdict (value atBaseline floor tolerance : Option ℚ) : RowVerdict :=
  match value with
  | none => .notMeasured
  | some v =>
      if Below v floor then .belowFloor
      else match atBaseline with
      | none => .adopted
      | some b => if Regressed A v b tolerance then .regressed else .ok

/-- Every rule one metric breaks, in the order the rules are declared. -/
def failures (name : Str) (value atBaseline floor tolerance : Option ℚ) : List Failure :=
  match value with
  -- A metric that was not measured is judged only where it was recorded.
  | none => [.unmeasured name (atBaseline.getD 0)]
  | some v =>
      (match floor with
        | none => []
        | some f => if v < f then [.belowFloor name v f] else []) ++
      (match atBaseline with
        | none => []
        | some b => if Regressed A v b tolerance then [.fell name v b tolerance] else [])

/-- The metrics a baseline records for one capability, by the prefix its names
    carry. -/
def metricsOf (baseline : Baseline) (c : Capability) : List (Str × ℚ) :=
  baseline.metrics.filter fun e => c.Owns e.1

/-- The question the baseline was asked that this run is not, if there is one. A
    baseline that records no metric was asked none. -/
def otherQuestion (baseline : Baseline) (ms : List Measurement) (settings : Settings) :
    Option Failure :=
  if baseline.metrics = [] then none
  else if baseline.settings ≠ settings then
    some (.settings baseline.settings.topK settings.topK)
  else
    let other := (ms.filter fun m => m.version ≠ (baseline.sets m.capability).version).map fun m =>
      (m.capability, (baseline.sets m.capability).version, m.version)
    if other = [] then none else some (.versions other)

/-- One capability's row when nothing was compared. -/
def incomparable (m : Measurement) : Row where
  capability := m.capability
  metric := none
  cases := m.cases
  answered := m.answered
  value := none
  baseline := none
  delta := none
  verdict := .incomparable

/-- One capability's row when there is no metric of it. -/
def unnamed (m : Measurement) : Row :=
  { incomparable m with
    verdict := if m.reading = .noCases then .noCases else .notImplemented }

/-- The metrics of one capability: what was measured, and what was recorded and
    was not. -/
def names (baseline : Baseline) (m : Measurement) : List Str :=
  m.metrics.map Prod.fst ++
    (((metricsOf baseline m.capability).map Prod.fst).filter fun name =>
      name ∉ m.metrics.map Prod.fst).insertionSort (· ≤ ·)

/-- The row of one metric. -/
def row (baseline : Baseline) (rules : Rules) (m : Measurement) (name : Str) : Row :=
  let value := m.metrics.lookup name
  let atBaseline := (metricsOf baseline m.capability).lookup name
  { capability := m.capability
    metric := some name
    cases := m.cases
    answered := m.answered
    value := value
    baseline := atBaseline
    delta := value.bind fun v => atBaseline.map fun b => A.float (v - b)
    verdict := verdict A value atBaseline (rules.floors.lookup name) rules.tolerance }

/-- What was judged, and every rule that fired. -/
structure Outcome where
  rows : List Row
  failures : List Failure

/-- No declared rule fired. -/
def Outcome.Passed (o : Outcome) : Prop :=
  o.failures = []

instance (o : Outcome) : Decidable o.Passed :=
  inferInstanceAs (Decidable (o.failures = []))

/-- The rows of one capability. -/
def rowsOf (baseline : Baseline) (rules : Rules) (m : Measurement) : List Row :=
  if names baseline m = [] then [unnamed m]
  else (names baseline m).map (row A baseline rules m)

/-- The rules that fired about one capability: about its set first. -/
def failuresOf (baseline : Baseline) (rules : Rules) (m : Measurement) : List Failure :=
  (if m.cases < (baseline.sets m.capability).cases then
      [.cases m.capability m.cases (baseline.sets m.capability).cases] else []) ++
  (names baseline m).flatMap fun name =>
    failures A name (m.metrics.lookup name) ((metricsOf baseline m.capability).lookup name)
      (rules.floors.lookup name) rules.tolerance

/-- Judge a run's measurements against a tag's baseline, under the declared
    rules. -/
def judge (ms : List Measurement) (baseline : Baseline) (rules : Rules) (settings : Settings) :
    Outcome :=
  match otherQuestion baseline ms settings with
  | some other => { rows := ms.map incomparable, failures := [other] }
  | none =>
      { rows := ms.flatMap (rowsOf A baseline rules)
        failures := ms.flatMap (failuresOf A baseline rules) }

/-- The baseline was asked this run's question, or none. -/
def Comparable (baseline : Baseline) (ms : List Measurement) (settings : Settings) : Prop :=
  baseline.metrics = [] ∨
    baseline.settings = settings ∧ ∀ m ∈ ms, m.version = (baseline.sets m.capability).version

/-- Measurements as a run takes them: one per capability, and what was measured
    of each under its own names, no name twice. -/
structure Measured (ms : List Measurement) : Prop where
  capabilities : (ms.map Measurement.capability).Perm capabilities
  owned : ∀ m ∈ ms, ∀ name ∈ m.metrics.map Prod.fst, m.capability.Owns name
  nodup : ∀ m ∈ ms, (m.metrics.map Prod.fst).Nodup

variable {A} {baseline : Baseline} {rules : Rules} {ms : List Measurement} {settings : Settings}

theorem otherQuestion_eq_none_iff :
    otherQuestion baseline ms settings = none ↔ Comparable baseline ms settings := by
  unfold otherQuestion Comparable
  by_cases hmetrics : baseline.metrics = []
  · rw [if_pos hmetrics]
    exact ⟨fun _ => Or.inl hmetrics, fun _ => rfl⟩
  · rw [if_neg hmetrics]
    by_cases hsettings : baseline.settings = settings
    · rw [if_neg (not_not.mpr hsettings)]
      simp only [hmetrics, hsettings, false_or, true_and]
      -- No set is at another version exactly if the list of those is empty.
      have hother : ((ms.filter fun m => m.version ≠ (baseline.sets m.capability).version).map
          fun m => (m.capability, (baseline.sets m.capability).version, m.version)) = [] ↔
          ∀ m ∈ ms, m.version = (baseline.sets m.capability).version := by
        rw [List.map_eq_nil_iff, List.filter_eq_nil_iff]
        simp only [ne_eq, decide_not, Bool.not_eq_true', decide_eq_false_iff_not, not_not]
      rw [← hother]
      split
      · rename_i h
        exact ⟨fun _ => h, fun _ => rfl⟩
      · rename_i h
        exact ⟨nofun, fun hnil => absurd hnil h⟩
    · rw [if_pos hsettings]
      simp only [hmetrics, hsettings, false_or, false_and]
      exact ⟨nofun, nofun⟩

/-- A metric breaks no rule when it is measured, at or above its floor, and not
    fallen. -/
theorem failures_eq_nil_iff {name : Str} {value atBaseline floor tolerance : Option ℚ} :
    failures A name value atBaseline floor tolerance = [] ↔
      ∃ v, value = some v ∧ ¬ Below v floor ∧ ¬ Fallen A v atBaseline tolerance := by
  cases value with
  | none => exact ⟨nofun, fun ⟨_, h, _⟩ => absurd h nofun⟩
  | some v =>
      -- A floor that is not set refuses nothing, and neither does a baseline without the metric.
      have hfloor : (match floor with
          | none => []
          | some f => if v < f then [Failure.belowFloor name v f] else []) = [] ↔
          ¬ Below v floor := by
        cases floor with
        | none => exact ⟨fun _ ⟨f, hf, _⟩ => absurd hf (Option.not_mem_none f), fun _ => rfl⟩
        | some f =>
            simp only [Below, Option.mem_some_iff, exists_eq_left']
            split <;> simp_all
      have hfallen : (match atBaseline with
          | none => []
          | some b => if Regressed A v b tolerance then [Failure.fell name v b tolerance] else []) =
          [] ↔ ¬ Fallen A v atBaseline tolerance := by
        cases atBaseline with
        | none => exact ⟨fun _ ⟨b, hb, _⟩ => absurd hb (Option.not_mem_none b), fun _ => rfl⟩
        | some b =>
            simp only [Fallen, Option.mem_some_iff, exists_eq_left']
            split <;> simp_all
      unfold failures
      simp only [List.append_eq_nil_iff, hfloor, hfallen, Option.some.injEq, exists_eq_left']

/-- The verdict on a metric is a bad one exactly where it breaks a rule. -/
theorem bad_verdict_iff {name : Str} {value atBaseline floor tolerance : Option ℚ} :
    (verdict A value atBaseline floor tolerance).Bad ↔
      failures A name value atBaseline floor tolerance ≠ [] := by
  rw [ne_eq, failures_eq_nil_iff]
  unfold RowVerdict.Bad
  -- The verdict looks at the floor before the baseline, the failures at both.
  cases value with
  | none => exact ⟨fun _ ⟨_, h, _⟩ => absurd h nofun, fun _ => Or.inr (Or.inr rfl)⟩
  | some v =>
      simp only [Option.some.injEq, exists_eq_left']
      by_cases hbelow : Below v floor
      · have hverdict : verdict A (some v) atBaseline floor tolerance = .belowFloor :=
          if_pos hbelow
        rw [hverdict]
        exact ⟨fun _ h => h.1 hbelow, fun _ => Or.inr (Or.inl rfl)⟩
      · cases atBaseline with
        | none =>
            have hverdict : verdict A (some v) none floor tolerance = .adopted := if_neg hbelow
            rw [hverdict]
            refine ⟨nofun, fun h => absurd ⟨hbelow, ?_⟩ h⟩
            exact fun ⟨b, hb, _⟩ => absurd hb (Option.not_mem_none b)
        | some b =>
            simp only [Fallen, Option.mem_some_iff, exists_eq_left']
            by_cases hfell : Regressed A v b tolerance
            · have hverdict : verdict A (some v) (some b) floor tolerance = .regressed :=
                (if_neg hbelow).trans (if_pos hfell)
              rw [hverdict]
              exact ⟨fun _ h => h.2 hfell, fun _ => Or.inl rfl⟩
            · have hverdict : verdict A (some v) (some b) floor tolerance = .ok :=
                (if_neg hbelow).trans (if_neg hfell)
              rw [hverdict]
              exact ⟨nofun, fun h => absurd ⟨hbelow, hfell⟩ h⟩

/-- What is broken about a metric is about that metric. -/
theorem metric_of_mem_failures {name : Str} {value atBaseline floor tolerance : Option ℚ}
    {f : Failure} (h : f ∈ failures A name value atBaseline floor tolerance) :
    f.metric = some name := by
  unfold failures at h
  cases value with
  | none =>
      rw [List.mem_singleton.mp h]
      rfl
  | some v =>
      rcases List.mem_append.mp h with h | h
      · cases floor with
        | none => exact absurd h List.not_mem_nil
        | some b =>
            simp only at h
            split at h
            · rw [List.mem_singleton.mp h]
              rfl
            · exact absurd h List.not_mem_nil
      · cases atBaseline with
        | none => exact absurd h List.not_mem_nil
        | some b =>
            simp only at h
            split at h
            · rw [List.mem_singleton.mp h]
              rfl
            · exact absurd h List.not_mem_nil

/-- A failure's line begins with its rule and the metric it is about. -/
theorem line_names {f : Failure} {name : Str} (h : f.metric = some name) :
    f.rule.value ++ text ": " ++ name <+: f.line A := by
  cases f with
  | settings _ _ | versions _ | cases _ _ _ => exact absurd h nofun
  | unmeasured _ _ | belowFloor _ _ _ | fell _ _ _ _ =>
      cases h
      simp only [Failure.line, Failure.rule, List.append_assoc, List.prefix_append_right_inj,
        List.prefix_append]

theorem mem_names {m : Measurement} {name : Str} :
    name ∈ names baseline m ↔
      name ∈ m.metrics.map Prod.fst ∨ name ∈ (metricsOf baseline m.capability).map Prod.fst := by
  unfold names
  rw [List.mem_append, (List.perm_insertionSort _ _).mem_iff, List.mem_filter, decide_eq_true_eq]
  by_cases h : name ∈ m.metrics.map Prod.fst
  · simp only [h, true_or]
  · simp only [h, false_or, not_false_eq_true, and_true]

theorem nodup_names {m : Measurement} (h : (m.metrics.map Prod.fst).Nodup) :
    (names baseline m).Nodup := by
  unfold names
  rw [List.nodup_append]
  refine ⟨h, ?_, ?_⟩
  · rw [(List.perm_insertionSort _ _).nodup_iff]
    have hrecorded : ((metricsOf baseline m.capability).map Prod.fst).Nodup :=
      baseline.nodup.sublist ((List.filter_sublist).map Prod.fst)
    exact hrecorded.filter _
  · rintro name hname other hother rfl
    rw [(List.perm_insertionSort _ _).mem_iff, List.mem_filter, decide_eq_true_eq] at hother
    exact hother.2 hname

/-- What is recorded of a capability is what is recorded under its names. -/
theorem lookup_metricsOf {c : Capability} {name : Str} (h : c.Owns name) :
    (metricsOf baseline c).lookup name = baseline.metrics.lookup name :=
  Dict.lookup_filter (fun n => decide (c.Owns n)) (decide_eq_true h)

/-- Every name of a capability's begins with it. -/
theorem owns_of_mem_names (hms : Measured ms) {m : Measurement} (hm : m ∈ ms) {name : Str}
    (h : name ∈ names baseline m) : m.capability.Owns name := by
  rcases mem_names.mp h with h | h
  · exact hms.owned m hm name h
  · rcases List.mem_map.mp h with ⟨e, he, rfl⟩
    exact of_decide_eq_true (List.mem_filter.mp he).2

/-- No rule fires about a capability exactly if its set lost no case and none of
    its metrics breaks one. -/
theorem failuresOf_eq_nil_iff {m : Measurement} :
    failuresOf A baseline rules m = [] ↔
      (baseline.sets m.capability).cases ≤ m.cases ∧
      ∀ name ∈ names baseline m, ∃ v, m.metrics.lookup name = some v ∧
        ¬ Below v (rules.floors.lookup name) ∧
        ¬ Fallen A v ((metricsOf baseline m.capability).lookup name) rules.tolerance := by
  unfold failuresOf
  rw [List.append_eq_nil_iff, List.flatMap_eq_nil_iff]
  simp only [failures_eq_nil_iff]
  refine and_congr_left fun _ => ?_
  split
  · rename_i h
    exact ⟨nofun, fun hle => absurd h (not_lt.mpr hle)⟩
  · rename_i h
    exact ⟨fun _ => not_lt.mp h, fun _ => rfl⟩

theorem exists_measurement (hms : Measured ms) (c : Capability) :
    ∃ m ∈ ms, m.capability = c := by
  have hc : c ∈ capabilities := by cases c <;> decide
  rcases List.mem_map.mp (hms.capabilities.mem_iff.mpr hc) with ⟨m, hm, rfl⟩
  exact ⟨m, hm, rfl⟩

theorem eq_of_capability (hms : Measured ms) {m n : Measurement} (hm : m ∈ ms) (hn : n ∈ ms)
    (h : m.capability = n.capability) : m = n := by
  have hnodup : (ms.map Measurement.capability).Nodup :=
    hms.capabilities.nodup_iff.mpr (by decide)
  exact List.inj_on_of_nodup_map hnodup hm hn h

theorem passed_iff_failuresOf :
    (judge A ms baseline rules settings).Passed ↔
      Comparable baseline ms settings ∧ ∀ m ∈ ms, failuresOf A baseline rules m = [] := by
  rw [← otherQuestion_eq_none_iff]
  unfold judge Outcome.Passed
  cases otherQuestion baseline ms settings with
  | some other => exact ⟨nofun, fun h => absurd h.1 nofun⟩
  | none =>
      simp only [true_and]
      exact List.flatMap_eq_nil_iff

/-- A metric of a capability's own breaks no rule exactly if it is measured, is
    not below its floor, and has not fallen below what is recorded for it. -/
theorem kept_iff (hms : Measured ms) {m : Measurement} (hm : m ∈ ms) {name : Str}
    (howns : m.capability.Owns name) :
    (∃ v, m.metrics.lookup name = some v ∧ ¬ Below v (rules.floors.lookup name) ∧
      ¬ Fallen A v ((metricsOf baseline m.capability).lookup name) rules.tolerance) ↔
    ∃ v, (name, v) ∈ m.metrics ∧ (∀ f, (name, f) ∈ rules.floors → f ≤ v) ∧
      ∀ b, (name, b) ∈ baseline.metrics → ¬ Regressed A v b rules.tolerance := by
  refine exists_congr fun v => ?_
  rw [Dict.lookup_eq_some_iff (hms.nodup m hm), lookup_metricsOf howns]
  refine and_congr_right fun _ => and_congr ?_ ?_
  · unfold Below
    simp only [Option.mem_def, Dict.lookup_eq_some_iff rules.nodup, not_exists, not_and, not_lt]
  · unfold Fallen
    simp only [Option.mem_def, Dict.lookup_eq_some_iff baseline.nodup, not_exists, not_and]

/-- The names of a capability are those measured of it and those recorded of
    it. -/
theorem mem_names_iff (hms : Measured ms) {m : Measurement} (hm : m ∈ ms) {name : Str} :
    name ∈ names baseline m ↔ m.capability.Owns name ∧
      (name ∈ ms.flatMap (fun n => n.metrics.map Prod.fst) ∨
        name ∈ baseline.metrics.map Prod.fst) := by
  constructor
  · intro h
    refine ⟨owns_of_mem_names hms hm h, ?_⟩
    rcases mem_names.mp h with h | h
    · exact Or.inl (List.mem_flatMap.mpr ⟨m, hm, h⟩)
    · exact Or.inr ((List.filter_sublist.map Prod.fst).mem h)
  · rintro ⟨howns, hmeasured | hrecorded⟩
    · -- The capability it was measured under is the one its name begins with.
      rcases List.mem_flatMap.mp hmeasured with ⟨n, hn, hname⟩
      have heq : n = m := eq_of_capability hms hn hm (owns_inj (hms.owned n hn name hname) howns)
      exact mem_names.mpr (Or.inl (heq ▸ hname))
    · rcases List.mem_map.mp hrecorded with ⟨e, he, rfl⟩
      exact mem_names.mpr (Or.inr (List.mem_map_of_mem
        (List.mem_filter.mpr ⟨he, decide_eq_true howns⟩)))

variable (baseline) in
theorem exists_mem_names (hms : Measured ms) {name : Str}
    (h : name ∈ ms.flatMap (fun n => n.metrics.map Prod.fst) ∨
      name ∈ baseline.metrics.map Prod.fst) :
    ∃ m ∈ ms, m.capability.Owns name ∧ name ∈ names baseline m := by
  have howner : ∃ c : Capability, c.Owns name := by
    rcases h with h | h
    · rcases List.mem_flatMap.mp h with ⟨n, hn, hname⟩
      exact ⟨n.capability, hms.owned n hn name hname⟩
    · rcases List.mem_map.mp h with ⟨e, he, rfl⟩
      exact exists_owns_of_isMetric (baseline.measurable e he).1
  rcases howner with ⟨c, hc⟩
  rcases exists_measurement hms c with ⟨m, hm, rfl⟩
  exact ⟨m, hm, hc, (mem_names_iff hms hm).mpr ⟨hc, h⟩⟩

/-- Of the rows of a capability exactly one is of a metric of its own. -/
theorem filter_rowsOf (hms : Measured ms) {m : Measurement} (hm : m ∈ ms) {name : Str}
    (h : name ∈ names baseline m) :
    (rowsOf A baseline rules m).filter (fun r => r.metric = some name) =
      [row A baseline rules m name] := by
  unfold rowsOf
  rw [if_neg (List.ne_nil_of_mem h)]
  exact Dict.filter_map_eq_singleton (nodup_names (hms.nodup m hm)) h (row A baseline rules m)
    Row.metric fun _ => rfl

theorem filter_rowsOf_of_notMem {m : Measurement} {name : Str} (h : name ∉ names baseline m) :
    (rowsOf A baseline rules m).filter (fun r => r.metric = some name) = [] := by
  rw [List.filter_eq_nil_iff]
  intro r hr
  unfold rowsOf at hr
  split at hr
  · rw [List.mem_singleton.mp hr]
    exact fun h => absurd (of_decide_eq_true h) nofun
  · rcases List.mem_map.mp hr with ⟨other, hother, rfl⟩
    rw [decide_eq_true_eq]
    rintro heq
    exact h (Option.some.inj heq ▸ hother)

/-- Of all rows exactly one is of a metric that is measured or recorded: its
    capability's. -/
theorem filter_rows (hms : Measured ms) {m : Measurement} (hm : m ∈ ms) {name : Str}
    (h : name ∈ names baseline m) :
    (ms.flatMap (rowsOf A baseline rules)).filter (fun r => r.metric = some name) =
      [row A baseline rules m name] := by
  have hnodup : ms.Nodup := (hms.capabilities.nodup_iff.mpr (by decide)).of_map _
  -- Only one measurement has a row of that name, and it stands between the others.
  rcases List.append_of_mem hm with ⟨pre, post, rfl⟩
  have hother : ∀ n ∈ pre ++ post, name ∉ names baseline n := by
    intro n hn hname
    have hn' : n ∈ pre ++ m :: post := by
      rw [List.mem_append] at hn
      exact List.mem_append.mpr (hn.imp_right (List.mem_cons_of_mem m))
    have heq : n = m := eq_of_capability hms hn' hm
      (owns_inj (owns_of_mem_names hms hn' hname) (owns_of_mem_names hms hm h))
    -- The measurement occurs only once.
    have hm' : m ∉ pre ++ post := (List.nodup_middle.mp hnodup).notMem
    exact hm' (heq ▸ hn)
  have hnil : ∀ rest : List Measurement, (∀ n ∈ rest, name ∉ names baseline n) →
      (rest.flatMap (rowsOf A baseline rules)).filter (fun r => r.metric = some name) = [] := by
    intro rest hrest
    induction rest with
    | nil => rfl
    | cons n rest ih =>
        rw [List.flatMap_cons, List.filter_append,
          filter_rowsOf_of_notMem (hrest n List.mem_cons_self),
          ih fun k hk => hrest k (List.mem_cons_of_mem n hk)]
        rfl
  rw [List.flatMap_append, List.flatMap_cons, List.filter_append, List.filter_append,
    hnil pre fun n hn => hother n (List.mem_append_left _ hn),
    hnil post fun n hn => hother n (List.mem_append_right _ hn), filter_rowsOf hms hm h]
  rfl

/-- A failure is about a metric where that metric breaks a rule. -/
theorem exists_failure_iff (hms : Measured ms) {m : Measurement} (hm : m ∈ ms) {name : Str}
    (h : name ∈ names baseline m) :
    (∃ f ∈ ms.flatMap (failuresOf A baseline rules), f.metric = some name) ↔
      failures A name (m.metrics.lookup name) ((metricsOf baseline m.capability).lookup name)
        (rules.floors.lookup name) rules.tolerance ≠ [] := by
  constructor
  · rintro ⟨f, hf, hname⟩
    rcases List.mem_flatMap.mp hf with ⟨n, hn, hf⟩
    unfold failuresOf at hf
    rcases List.mem_append.mp hf with hf | hf
    · -- A failure about a set is about no metric.
      split at hf
      · rw [List.mem_singleton.mp hf] at hname
        exact absurd hname nofun
      · exact absurd hf List.not_mem_nil
    · rcases List.mem_flatMap.mp hf with ⟨other, hother, hf⟩
      have heq : other = name :=
        Option.some.inj ((metric_of_mem_failures hf).symm.trans hname)
      subst heq
      have hnm : n = m := eq_of_capability hms hn hm
        (owns_inj (owns_of_mem_names hms hn hother) (owns_of_mem_names hms hm h))
      subst hnm
      exact List.ne_nil_of_mem hf
  · intro hne
    rcases List.exists_mem_of_ne_nil _ hne with ⟨f, hf⟩
    refine ⟨f, List.mem_flatMap.mpr ⟨m, hm, ?_⟩, metric_of_mem_failures hf⟩
    exact List.mem_append_right _ (List.mem_flatMap.mpr ⟨name, h, hf⟩)

/-- A run passes exactly if the baseline was asked its question, no set lost a
    case, every metric recorded is measured and has not fallen, and every metric
    measured is at or above its floor. And where the baseline is comparable,
    every metric measured or recorded has one row, under its own capability,
    whose verdict is a bad one exactly where a failure is about the metric. -/
theorem passed_iff (A : Arithmetic) (baseline : Baseline) (rules : Rules) (settings : Settings)
    {ms : List Measurement} (hms : Measured ms) :
    ((judge A ms baseline rules settings).Passed ↔
      (baseline.metrics = [] ∨ baseline.settings = settings ∧
        ∀ m ∈ ms, m.version = (baseline.sets m.capability).version) ∧
      (∀ m ∈ ms, (baseline.sets m.capability).cases ≤ m.cases) ∧
      (∀ name b, (name, b) ∈ baseline.metrics →
        ∃ m ∈ ms, ∃ v, (name, v) ∈ m.metrics ∧ ¬ Regressed A v b rules.tolerance) ∧
      ∀ m ∈ ms, ∀ name v f, (name, v) ∈ m.metrics → (name, f) ∈ rules.floors → f ≤ v) ∧
    (otherQuestion baseline ms settings = none →
      ∀ name, name ∈ ms.flatMap (fun m => m.metrics.map Prod.fst) ∨
          name ∈ baseline.metrics.map Prod.fst →
        ∃ r, (judge A ms baseline rules settings).rows.filter (fun r => r.metric = some name) =
          [r] ∧
          r.capability.Owns name ∧
          (r.verdict = .regressed ∨ r.verdict = .belowFloor ∨ r.verdict = .notMeasured ↔
            ∃ f ∈ (judge A ms baseline rules settings).failures, f.metric = some name)) := by
  constructor
  · rw [passed_iff_failuresOf]
    refine and_congr_right fun _ => ?_
    simp only [failuresOf_eq_nil_iff]
    constructor
    · intro h
      refine ⟨fun m hm => (h m hm).1, fun name b hb => ?_, fun m hm name v f hv hf => ?_⟩
      · rcases exists_mem_names baseline hms
          (Or.inr (List.mem_map_of_mem (f := Prod.fst) hb)) with ⟨m, hm, howns, hname⟩
        -- A metric that is kept is measured, at its floor or above it, and has not fallen.
        rcases (kept_iff hms hm howns).mp ((h m hm).2 name hname) with ⟨v, hv, _, hfell⟩
        exact ⟨m, hm, v, hv, hfell b hb⟩
      · have hmem : name ∈ m.metrics.map Prod.fst := List.mem_map_of_mem (f := Prod.fst) hv
        rcases (kept_iff hms hm (hms.owned m hm name hmem)).mp
          ((h m hm).2 name (mem_names.mpr (Or.inl hmem))) with ⟨w, hw, hfloor, _⟩
        have hvw : v = w := Option.some.inj
          (((Dict.lookup_eq_some_iff (hms.nodup m hm)).mpr hv).symm.trans
            ((Dict.lookup_eq_some_iff (hms.nodup m hm)).mpr hw))
        exact hvw ▸ hfloor f hf
    · rintro ⟨hcases, hrecorded, hfloors⟩ m hm
      refine ⟨hcases m hm, fun name hname => ?_⟩
      have howns := owns_of_mem_names hms hm hname
      refine (kept_iff hms hm howns).mpr ?_
      -- A name that is only recorded is measured too.
      have hmeasured : ∃ v, (name, v) ∈ m.metrics := by
        rcases mem_names.mp hname with h | h
        · rcases List.mem_map.mp h with ⟨⟨n, v⟩, hv, rfl⟩
          exact ⟨v, hv⟩
        · rcases List.mem_map.mp h with ⟨⟨n, b⟩, hb, rfl⟩
          rcases hrecorded n b (List.mem_of_mem_filter hb) with ⟨k, hk, v, hv, _⟩
          have hkm : k = m := eq_of_capability hms hk hm (owns_inj
            (hms.owned k hk n (List.mem_map_of_mem (f := Prod.fst) hv)) howns)
          exact ⟨v, hkm ▸ hv⟩
      rcases hmeasured with ⟨v, hv⟩
      refine ⟨v, hv, fun f hf => hfloors m hm name v f hv hf, fun b hb => ?_⟩
      rcases hrecorded name b hb with ⟨k, hk, w, hw, hfell⟩
      have hkm : k = m := eq_of_capability hms hk hm (owns_inj
        (hms.owned k hk name (List.mem_map_of_mem (f := Prod.fst) hw)) howns)
      subst hkm
      have hvw : v = w := Option.some.inj
        (((Dict.lookup_eq_some_iff (hms.nodup k hm)).mpr hv).symm.trans
          ((Dict.lookup_eq_some_iff (hms.nodup k hm)).mpr hw))
      exact hvw ▸ hfell
  · intro hnone name hname
    -- The name belongs to one capability, whose row it is.
    rcases exists_mem_names baseline hms hname with ⟨m, hm, howns, hmem⟩
    have hjudge : judge A ms baseline rules settings =
        { rows := ms.flatMap (rowsOf A baseline rules)
          failures := ms.flatMap (failuresOf A baseline rules) } := by
      unfold judge
      rw [hnone]
    rw [hjudge]
    refine ⟨row A baseline rules m name, filter_rows hms hm hmem, howns, ?_⟩
    rw [exists_failure_iff hms hm hmem]
    exact bad_verdict_iff

end Judge

section Example

/-- A retrieval set of one case, its mean reciprocal rank measured at 0.98. -/
def oneMeasured : List Measurement :=
  [⟨.extraction, 1, .noCases, 0, 0, []⟩,
    ⟨.retrieval, 1, .scored, 1, 1, [(text "retrieval.mrr", 98 / 100)]⟩,
    ⟨.classification, 1, .noCases, 0, 0, []⟩]

theorem measured_oneMeasured : Measured oneMeasured :=
  ⟨by decide, by decide +kernel, by decide +kernel⟩

/-- A baseline that records that metric at 1. -/
def oneRecorded : Baseline where
  tag := text "v1"
  settings := ⟨5, by decide⟩
  sets c := ⟨1, if c = .retrieval then 1 else 0, by decide⟩
  metrics := [(text "retrieval.mrr", 1)]
  tag_ne_nil := by decide
  nodup := by decide
  measurable := by decide +kernel

/-- A tolerance of two points. -/
def twoPoints : Rules where
  tolerance := some (2 / 100)
  floors := [(citationValidity, 98 / 100)]
  bounded := by decide +kernel
  nodup := by decide
  measurable := by decide +kernel
  declared := by decide

/-- Two points below the baseline is what the tolerance allows. -/
theorem passed_iff_twoPoints :
    (judge exact oneMeasured oneRecorded twoPoints ⟨5, by decide⟩).Passed ∧
      ∀ name b, (name, b) ∈ oneRecorded.metrics →
        ∃ m ∈ oneMeasured, ∃ v, (name, v) ∈ m.metrics ∧ ¬ Regressed exact v b twoPoints.tolerance :=
  ⟨by decide +kernel,
    ((passed_iff exact oneRecorded twoPoints ⟨5, by decide⟩ measured_oneMeasured).1.mp
      (by decide +kernel)).2.2.1⟩

end Example

end Evaluation

end ClaimTriage
