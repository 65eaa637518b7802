import ClaimTriage.Evaluation.Correction
import ClaimTriage.Evaluation.Proportions
import ClaimTriage.Evaluation.Record

/-!
# A Run Judged Against Itself

What a run records is what it measured, to six decimals, and the gate compares
with nine. A value that is rounded up by the record has fallen below it by what
was added, which is more than a tolerance of zero, or of less than half a unit of
the sixth decimal: the run that has just been recorded does not pass.

Nothing else of a run can fail against its own record: it was asked the same
question of the same cases, and every metric recorded was measured.

## Main definitions

* `Kept`: A value has not fallen by being recorded.

## Theorems

* `rejudged_iff`: When a run passes against its own record.
* `not_regressed_of_le`: A tolerance that is enough for every value.
-/

namespace ClaimTriage

namespace Evaluation

open Theory Text

/-- A metric as it is recorded. -/
def recordedAs (A : Arithmetic) (value : ℚ) : ℚ :=
  A.float (Rounding.rounded 6 value)

/-- A metric can be recorded, and has not fallen by it. -/
def Kept (A : Arithmetic) (tolerance : Option ℚ) (e : Str × ℚ) : Prop :=
  Measurable e.1 (recordedAs A e.2) ∧ ¬ Regressed A e.2 (recordedAs A e.2) tolerance

instance {A : Arithmetic} {tolerance : Option ℚ} {e : Str × ℚ} : Decidable (Kept A tolerance e) :=
  inferInstanceAs (Decidable (_ ∧ ¬ _))

section Rejudged

variable {A : Arithmetic} {compare : Scalar → Scalar → Bool} {sets : Sets} {answers : Answers}
  {topK : Nat} {tag : Str} {settings : Settings} {rules : Rules} {ms : List Measurement}
  {b : Baseline}

/-- A run's own record is of its question. -/
theorem comparable_recorded (hms : measure A compare sets answers topK = .ok ms)
    (hb : recorded A tag sets ms settings = .ok b) : Comparable b ms settings := by
  rcases recorded_eq_ok hb with ⟨_, hsettings, _, hsets⟩
  refine Or.inr ⟨hsettings, fun m hm => ?_⟩
  rw [(hsets m.capability).1]
  exact ((measure_ok hms).2 m hm).version

/-- And what it records for a metric is what it measured. -/
theorem lookup_recorded (hms : measure A compare sets answers topK = .ok ms)
    (hb : recorded A tag sets ms settings = .ok b) {m : Measurement} (hm : m ∈ ms)
    {e : Str × ℚ} (he : e ∈ m.metrics) :
    (metricsOf b m.capability).lookup e.1 = some (recordedAs A e.2) := by
  have hmeasured := measured_of_measure hms
  have howns := hmeasured.owned m hm e.1 (List.mem_map_of_mem he)
  have hscored : m.reading = .scored :=
    ((measure_ok hms).2 m hm).reading (List.ne_nil_of_mem he)
  rw [lookup_metricsOf howns, Dict.lookup_eq_some_iff b.nodup, (recorded_eq_ok hb).2.2.1]
  exact (mem_recordedMetrics hmeasured).mpr ⟨m, hm, hscored, e.2, he, rfl⟩

/-- What is recorded of a capability was measured of it. -/
theorem names_recorded (hms : measure A compare sets answers topK = .ok ms)
    (hb : recorded A tag sets ms settings = .ok b) {m : Measurement} (hm : m ∈ ms) {name : Str} :
    name ∈ names b m ↔ name ∈ m.metrics.map Prod.fst := by
  have hmeasured := measured_of_measure hms
  rw [mem_names_iff hmeasured hm]
  constructor
  · -- A name of the capability's that was recorded was measured by a measurement of it, and there
    -- is only one.
    rintro ⟨howns, hname | hname⟩
    · rcases List.mem_flatMap.mp hname with ⟨n, hn, hname⟩
      have heq : n = m :=
        eq_of_capability hmeasured hn hm (owns_inj (hmeasured.owned n hn name hname) howns)
      exact heq ▸ hname
    · rcases List.mem_map.mp hname with ⟨⟨name, w⟩, hw, rfl⟩
      rw [(recorded_eq_ok hb).2.2.1] at hw
      rcases (mem_recordedMetrics hmeasured).mp hw with ⟨n, hn, _, v, hv, _⟩
      have hname : name ∈ n.metrics.map Prod.fst := List.mem_map_of_mem (f := Prod.fst) hv
      have heq : n = m :=
        eq_of_capability hmeasured hn hm (owns_inj (hmeasured.owned n hn name hname) howns)
      exact heq ▸ hname
  · intro hname
    exact ⟨hmeasured.owned m hm name hname, Or.inl (List.mem_flatMap.mpr ⟨m, hm, hname⟩)⟩

/-- A run is recorded exactly if the model takes every metric it measured. -/
theorem exists_recorded_iff (hms : measure A compare sets answers topK = .ok ms)
    (htag : tag ≠ []) :
    (∃ b, recorded A tag sets ms settings = .ok b) ↔
      ∀ m ∈ ms, ∀ e ∈ m.metrics, Measurable e.1 (recordedAs A e.2) := by
  have hmeasured := measured_of_measure hms
  have hall : (∀ e ∈ recordedMetrics A ms, Measurable e.1 e.2) ↔
      ∀ m ∈ ms, ∀ e ∈ m.metrics, Measurable e.1 (recordedAs A e.2) := by
    -- What is recorded is what the scored measurements come to, and one with metrics is scored.
    constructor
    · intro h m hm e he
      have hscored : m.reading = .scored :=
        ((measure_ok hms).2 m hm).reading (List.ne_nil_of_mem he)
      exact h (e.1, recordedAs A e.2)
        ((mem_recordedMetrics hmeasured).mpr ⟨m, hm, hscored, e.2, he, rfl⟩)
    · rintro h ⟨name, w⟩ hw
      rcases (mem_recordedMetrics hmeasured).mp hw with ⟨m, hm, _, v, hv, rfl⟩
      exact h m hm (name, v) hv
  unfold recorded
  simp only [htag, ne_eq, not_false_eq_true, true_and, hall]
  split
  · rename_i h
    exact ⟨fun _ => h, fun _ => ⟨_, rfl⟩⟩
  · rename_i h
    refine ⟨?_, fun hyes => absurd hyes h⟩
    rintro ⟨b, hb⟩
    cases hb

/-- The verdict on a metric that is at or above its floor and has not fallen. -/
theorem verdict_eq_ok {v b : ℚ} {floor tolerance : Option ℚ} (hfloor : ¬ Below v floor)
    (hkept : ¬ Regressed A v b tolerance) : verdict A (some v) (some b) floor tolerance = .ok :=
  (if_neg hfloor).trans (if_neg hkept)

/-- Against a tag nothing was recorded for, a run passes by its floors. -/
theorem not_below_of_unrecorded {before : Baseline}
    (hms : measure A compare sets answers topK = .ok ms)
    (hpassed : (judge A ms before rules settings).Passed) {m : Measurement} (hm : m ∈ ms)
    {e : Str × ℚ} (he : e ∈ m.metrics) : ¬ Below e.2 (rules.floors.lookup e.1) := by
  have hnodup := (measured_of_measure hms).nodup m hm
  have hname : e.1 ∈ names before m := mem_names.mpr (Or.inl (List.mem_map_of_mem he))
  rcases (failuresOf_eq_nil_iff.mp ((passed_iff_failuresOf.mp hpassed).2 m hm)).2 e.1 hname with
    ⟨v, hv, hfloor, _⟩
  rw [(Dict.lookup_eq_some_iff hnodup).mpr he] at hv
  cases hv
  exact hfloor

/-- A run that passes against a tag nothing was recorded for passes against its own record, with
    every metric's verdict ok, exactly if no metric has fallen by being recorded. -/
theorem rejudged_iff {before : Baseline} (hms : measure A compare sets answers topK = .ok ms)
    (hbefore : unrecorded A tag sets settings = .ok before)
    (hpassed : (judge A ms before rules settings).Passed) :
    (∃ b, recorded A tag sets ms settings = .ok b ∧ (judge A ms b rules settings).Passed ∧
      ∀ r ∈ (judge A ms b rules settings).rows, r.metric ≠ none → r.verdict = .ok) ↔
      ∀ m ∈ ms, ∀ e ∈ m.metrics, Kept A rules.tolerance e := by
  have hmeasured := measured_of_measure hms
  have htag : tag ≠ [] := (recorded_eq_ok hbefore).1 ▸ before.tag_ne_nil
  have hlookup : ∀ m ∈ ms, ∀ e ∈ m.metrics, m.metrics.lookup e.1 = some e.2 := fun m hm e he =>
    (Dict.lookup_eq_some_iff (hmeasured.nodup m hm)).mpr he
  constructor
  · rintro ⟨b, hb, hafter, _⟩ m hm e he
    -- Recording refuses what is not measurable, so all of it is.
    refine ⟨(exists_recorded_iff hms htag).mp ⟨b, hb⟩ m hm e he, fun hfell => ?_⟩
    -- And a metric that fell against its own record would have been reported.
    have hname : e.1 ∈ names b m := (names_recorded hms hb hm).mpr (List.mem_map_of_mem he)
    rcases (failuresOf_eq_nil_iff.mp ((passed_iff_failuresOf.mp hafter).2 m hm)).2 e.1 hname with
      ⟨v, hv, _, hkept⟩
    rw [hlookup m hm e he] at hv
    cases hv
    exact hkept ⟨_, lookup_recorded hms hb hm he, hfell⟩
  · intro hkept
    have hrecorded : ∃ b, recorded A tag sets ms settings = .ok b :=
      (exists_recorded_iff hms htag).mpr fun m hm e he => (hkept m hm e he).1
    rcases hrecorded with ⟨b, hb⟩
    have hcomparable := comparable_recorded hms hb
    refine ⟨b, hb, passed_iff_failuresOf.mpr ⟨hcomparable, fun m hm => ?_⟩, fun r hr hmetric => ?_⟩
    · -- The sizes are those recorded, and no metric is missing or below its floor.
      refine failuresOf_eq_nil_iff.mpr ⟨?_, fun name hname => ?_⟩
      · rw [((recorded_eq_ok hb).2.2.2 m.capability).2, ((measure_ok hms).2 m hm).cases]
      · rcases List.mem_map.mp ((names_recorded hms hb hm).mp hname) with ⟨e, he, rfl⟩
        refine ⟨e.2, hlookup m hm e he, not_below_of_unrecorded hms hpassed hm he, ?_⟩
        rintro ⟨w, hw, hfell⟩
        rw [lookup_recorded hms hb hm he] at hw
        cases hw
        exact (hkept m hm e he).2 hfell
    · -- A row that names a metric is one of a metric that was measured.
      have hrows : r ∈ ms.flatMap (rowsOf A b rules) := by
        unfold judge at hr
        rw [otherQuestion_eq_none_iff.mpr hcomparable] at hr
        exact hr
      rcases List.mem_flatMap.mp hrows with ⟨m, hm, hr⟩
      unfold rowsOf at hr
      split at hr
      · rw [List.mem_singleton.mp hr] at hmetric
        exact absurd rfl hmetric
      · rcases List.mem_map.mp hr with ⟨name, hname, rfl⟩
        rcases List.mem_map.mp ((names_recorded hms hb hm).mp hname) with ⟨e, he, rfl⟩
        simp only [row, hlookup m hm e he, lookup_recorded hms hb hm he]
        exact verdict_eq_ok (not_below_of_unrecorded hms hpassed hm he) (hkept m hm e he).2

/-- A tolerance of half a unit of the sixth decimal is enough for every value. -/
theorem not_regressed_of_le {tolerance v : ℚ} (h : 1 / 2 / 10 ^ 6 ≤ tolerance) :
    ¬ Regressed exact v (recordedAs exact v) (some tolerance) := by
  have hoff : recordedAs exact v - v ≤ 1 / 2 / 10 ^ 6 :=
    (abs_le.mp (Rounding.abs_rounded_sub_le 6 v)).2
  have hround : Rounding.rounded 9 (recordedAs exact v - v) ≤ 1 / 2 / 10 ^ 6 := by
    have hplaces : (1 / 2 / 10 ^ 6 : ℚ) = (500 : ℤ) / 10 ^ 9 := by norm_num
    calc Rounding.rounded 9 (recordedAs exact v - v)
        ≤ Rounding.rounded 9 (1 / 2 / 10 ^ 6) := Rounding.rounded_mono 9 hoff
      _ = 1 / 2 / 10 ^ 6 := by rw [hplaces, Rounding.rounded_intCast_div]
  exact not_lt.mpr (hround.trans h)

end Rejudged

section Example

/-- Three fields with one value each. -/
def threeFields (third : Int) : Fields where
  entries := [(text "a", .int 1), (text "b", .int 1), (text "d", .int third)]
  nodup := show [text "a", text "b", text "d"].Nodup by decide
  named := show ∀ name ∈ [text "a", text "b", text "d"], MatchesFieldName name by decide +kernel

/-- One document, three fields. -/
def oneDocument : Sets where
  extraction := {
    version := 1
    description := []
    cases := [⟨text "c", [], threeFields 1, List.cons_ne_nil _ _⟩]
    path := []
    version_pos := Nat.one_pos }
  retrieval := ⟨1, [], [], [], Nat.one_pos⟩
  classification := ⟨1, [], [], [], Nat.one_pos⟩

/-- The three fields answered, the third with this value. -/
def answering (third : Int) : Answers where
  extraction := some [(text "c", ⟨threeFields third⟩)]
  retrieval := none
  classification := none

/-- No tolerance at all. -/
def strict : Rules where
  tolerance := some 0
  floors := [(citationValidity, 0)]
  bounded := by decide +kernel
  nodup := by decide
  measurable := by decide +kernel
  declared := by decide

/-- With all of them right, the run passes against its own record. -/
theorem rejudged_right :
    ∃ ms, measure exact (fun a b => a = b) oneDocument (answering 1) 5 = .ok ms ∧
      ∃ b, recorded exact (text "v1") oneDocument ms ⟨5, by decide⟩ = .ok b ∧
        (judge exact ms b strict ⟨5, by decide⟩).Passed ∧
        ∀ r ∈ (judge exact ms b strict ⟨5, by decide⟩).rows, r.metric ≠ none → r.verdict = .ok :=
  ⟨_, rfl, (rejudged_iff rfl rfl (by decide +kernel)).mpr (by decide +kernel)⟩

/-- With one of them wrong, two thirds are recorded as more than they are, and have fallen. -/
theorem not_rejudged_thirds :
    (do
      let ms ← measure exact (fun a b => a = b) oneDocument (answering 2) 5
      let before ← unrecorded exact (text "v1") oneDocument ⟨5, by decide⟩
      let after ← recorded exact (text "v1") oneDocument ms ⟨5, by decide⟩
      return (decide (judge exact ms before strict ⟨5, by decide⟩).Passed,
        decide (judge exact ms after strict ⟨5, by decide⟩).Passed)) = .ok (true, false) := by
  decide +kernel

end Example

end Evaluation

end ClaimTriage
