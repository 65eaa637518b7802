import ClaimTriage.Evaluation.Rerun
import ClaimTriage.Evaluation.Written

/-!
# The Baseline File

A run that measures at all is recorded, and the file that is written is read back
as the same baseline, unless a field has a name no metric can carry: the pattern a
case's field names are held to takes a newline after the name, and the pattern a
metric's name is held to does not take one in its middle.

How the validation library writes a value as text and reads one is its own affair
(`JsonText`); what the model writes of a baseline and takes of a value is here.

## Main definitions

* `JsonText`: How the library writes and reads a value.
* `baselineValue`: What is written of a baseline.
* `baselineFits`: What the baseline's model takes.
* `writtenBaseline`, `readBaseline`: A baseline's file.
* `Recordable`: What a run measures is recorded and read back.

## Theorems

* `baselineFits_baselineValue`: A baseline is taken as it was written.
* `recordable_iff`: When what a run measures is recorded and read back.
-/

namespace ClaimTriage

namespace Evaluation

open Theory Text

/-- How a validation library writes a value as a text of several lines, and reads one. It
    raises where there is something it cannot write, and the newline that ends a file is no
    part of a value. -/
structure JsonText (L : Library) where
  toJson : Value → Option Str
  fromJson : Str → Except Str Value
  writable : ∀ v s, toJson v = some s → ∀ a ∈ v.atoms, Writable a
  fromJson_toJson : ∀ v, (∀ a ∈ v.atoms, Value.Stable L.read a ∧ Writable a) →
    Value.Framed 3 v → ∃ s, toJson v = some s ∧ fromJson (s ++ [0x0A]) = .ok v

/-- What a file holds, seen as something else. -/
def Entry.map {γ δ : Type} (f : γ → δ) : Entry γ → Entry δ
  | file content => file (f content)
  | absent => absent
  | directory => directory

section Model

variable (L : Library)

/-- The names of a set's record. -/
def setRecordNames : List Str :=
  [text "version", text "cases"]

/-- What is written of a set's record. -/
def setRecordValue (r : SetRecord) : Value :=
  record setRecordNames [.int r.version, .int r.cases]

/-- A number of something, none included. -/
def natural (v : Value) : Option Nat :=
  (L.int v).bind fun n => if 0 ≤ n then some n.toNat else none

/-- What the model of a set's record takes. -/
def setRecord (v : Value) : Option SetRecord := do
  let fs ← fieldsOf setRecordNames v
  let version ← required fs (text "version") (positive L)
  let cases ← required fs (text "cases") (natural L)
  if h : 1 ≤ version then some ⟨version, cases, h⟩ else none

/-- What is written of the records of the sets. -/
def setsValue (sets : Capability → SetRecord) : Value :=
  record (capabilities.map Capability.value) (capabilities.map fun c => setRecordValue (sets c))

/-- The records of the sets, one for every capability. -/
def setRecords : Value → Option (Capability → SetRecord)
  | .obj fs => do
      let records ← fs.mapM fun f => do
        let c ← capabilityOf f.1
        let r ← setRecord L f.2
        return (c, r)
      let extraction ← records.lookup .extraction
      let retrieval ← records.lookup .retrieval
      let classification ← records.lookup .classification
      return fun
        | .extraction => extraction
        | .retrieval => retrieval
        | .classification => classification
  | _ => none

/-- What is written of the metrics. -/
def metricsValue (metrics : List (Str × ℚ)) : Value :=
  .obj (metrics.map fun e => (e.1, .float (L.written (some e.2))))

/-- The metrics, none of which is not a number. -/
def metricsFits : Value → Option (List (Str × ℚ))
  | .obj fs => fs.mapM fun f => do
      let score ← L.number f.2
      let q ← score
      return (f.1, q)
  | _ => none

/-- The names of a baseline's fields. -/
def baselineNames : List Str :=
  [text "tag", text "settings", text "sets", text "metrics"]

/-- What is written under a baseline's names. -/
def baselineValues (b : Baseline) : List Value :=
  [.str b.tag, record [text "top_k"] [.int b.settings.topK], setsValue b.sets,
    metricsValue L b.metrics]

/-- What is written of a baseline. -/
def baselineValue (b : Baseline) : Value :=
  record baselineNames (baselineValues L b)

/-- What the model of the settings takes. -/
def settingsFits (v : Value) : Option Settings := do
  let fs ← fieldsOf [text "top_k"] v
  let topK ← required fs (text "top_k") (positive L)
  if h : 1 ≤ topK then some ⟨topK, h⟩ else none

/-- What the model of a baseline takes. -/
def baselineFits (v : Value) : Option Baseline := do
  let fs ← fieldsOf baselineNames v
  let tag ← required fs (text "tag") L.str
  let settings ← required fs (text "settings") (settingsFits L)
  let sets ← required fs (text "sets") (setRecords L)
  let metrics ← required fs (text "metrics") (metricsFits L)
  if h : tag ≠ [] ∧ (metrics.map Prod.fst).Nodup ∧ ∀ e ∈ metrics, Measurable e.1 e.2 then
    some ⟨tag, settings, sets, metrics, h.1, h.2.1, h.2.2⟩
  else none

/-! ### A baseline is taken as it was written -/

theorem setRecord_setRecordValue (r : SetRecord) : setRecord L (setRecordValue r) = some r := by
  have hversion : required (setRecordNames.zip [.int r.version, .int r.cases]) (text "version")
      (positive L) = some r.version := positive_int L r.version_pos
  have hcases : required (setRecordNames.zip [.int r.version, .int r.cases]) (text "cases")
      (natural L) = some r.cases := by
    have hle : (0 : Int) ≤ r.cases := Int.natCast_nonneg _
    change (L.int (.int r.cases)).bind _ = _
    rw [L.int_eq, Option.bind_some, if_pos hle]
    rfl
  unfold setRecord setRecordValue
  simp only [fieldsOf_record, Option.bind_eq_bind, Option.bind_some, hversion, hcases]
  exact dif_pos r.version_pos

theorem setRecords_setsValue (sets : Capability → SetRecord) :
    setRecords L (setsValue sets) = some sets := by
  have heta : (fun
      | .extraction => sets .extraction
      | .retrieval => sets .retrieval
      | .classification => sets .classification : Capability → SetRecord) = sets := by
    funext c
    cases c <;> rfl
  unfold setRecords setsValue record capabilities
  simp only [List.map_cons, List.map_nil, List.zip_cons_cons, List.zip_nil_left, List.mapM_cons,
    List.mapM_nil, capabilityOf_value, setRecord_setRecordValue, Option.bind_eq_bind,
    Option.bind_some, Option.pure_def]
  exact congrArg some heta

theorem metricsFits_metricsValue {metrics : List (Str × ℚ)}
    (h : ∀ e ∈ metrics, L.Held (some e.2)) :
    metricsFits L (metricsValue L metrics) = some metrics := by
  unfold metricsFits metricsValue
  induction metrics with
  | nil => rfl
  | cons e metrics ih =>
      rw [List.forall_mem_cons] at h
      have hrest := ih h.2
      simp only [Option.bind_eq_bind, Option.pure_def] at hrest ⊢
      simp only [List.map_cons, List.mapM_cons, L.number_eq _ h.1, hrest, Option.bind_eq_bind,
        Option.bind_some, Option.pure_def]

/-- A baseline is taken as it was written, if its values are the machine's. -/
theorem baselineFits_baselineValue {b : Baseline} (h : ∀ e ∈ b.metrics, L.Held (some e.2)) :
    baselineFits L (baselineValue L b) = some b := by
  have htag : required (baselineNames.zip (baselineValues L b)) (text "tag") L.str =
      some b.tag := L.str_eq _
  have hsettings : required (baselineNames.zip (baselineValues L b)) (text "settings")
      (settingsFits L) = some b.settings := by
    -- The settings are an object of their own, with one field.
    have htopK : required ([text "top_k"].zip [.int b.settings.topK]) (text "top_k")
        (positive L) = some b.settings.topK := positive_int L b.settings.topK_pos
    change settingsFits L (record [text "top_k"] [.int b.settings.topK]) = _
    unfold settingsFits
    simp only [fieldsOf_record, Option.bind_eq_bind, Option.bind_some, htopK]
    exact dif_pos b.settings.topK_pos
  have hsets : required (baselineNames.zip (baselineValues L b)) (text "sets")
      (setRecords L) = some b.sets := setRecords_setsValue L b.sets
  have hmetrics : required (baselineNames.zip (baselineValues L b)) (text "metrics")
      (metricsFits L) = some b.metrics := metricsFits_metricsValue L h
  unfold baselineFits baselineValue
  simp only [fieldsOf_record, Option.bind_eq_bind, Option.bind_some, htag, hsettings, hsets,
    hmetrics]
  exact dif_pos ⟨b.tag_ne_nil, b.nodup, b.measurable⟩

theorem framed_baselineValue (b : Baseline) : Value.Framed 3 (baselineValue L b) := by
  -- A size stands two brackets deep, under its capability.
  have hrecord : ∀ n (r : SetRecord), Value.Framed (n + 1) (setRecordValue r) := by
    intro n r
    refine framed_record (by decide +kernel) le_rfl ?_
    simp only [List.forall_mem_cons]
    exact ⟨framed_int n _, framed_int n _, List.forall_mem_nil _⟩
  have hsets : Value.Framed 2 (setsValue b.sets) := by
    refine framed_record (by decide +kernel) le_rfl ?_
    rw [List.forall_mem_map]
    exact fun c _ => hrecord 0 (b.sets c)
  have hsettings : Value.Framed 2 (record [text "top_k"] [.int b.settings.topK]) :=
    framed_record (List.nodup_singleton _) le_rfl
      (List.forall_mem_singleton.mpr (framed_int 1 _))
  have hmetrics : Value.Framed 2 (metricsValue L b.metrics) := by
    -- The metrics are a dictionary under their names, no two of which are one.
    refine ⟨?_, framedFields_iff.mpr (List.forall_mem_map.mpr fun e _ => framed_float 1 _)⟩
    rw [List.map_map]
    exact b.nodup
  refine framed_record (by decide +kernel) le_rfl ?_
  simp only [baselineValues, List.forall_mem_cons]
  exact ⟨framed_str 2 _, hsettings, hsets, hmetrics, List.forall_mem_nil _⟩

end Model

section File

variable {L : Library} (J : JsonText L)

/-- The text of a baseline's file, unless there is something in it that is not written. -/
def writtenBaseline (b : Baseline) : Option Str :=
  (J.toJson (baselineValue L b)).map (· ++ [0x0A])

/-- What a text is to a baseline's model. -/
def validateJson (s : Str) : Except Str Baseline :=
  match J.fromJson s with
  | .error wrong => .error wrong
  | .ok v =>
      match baselineFits L v with
      | some b => .ok b
      | none => .error (L.report (text "Baseline") v)

/-- One baseline file, or the refusal that says which file is not one. -/
def readBaseline (path : Str) (e : Entry (Read Str)) : Except Raised Baseline :=
  document (text "a baseline") path (e.map (Except.map (validateJson J)))

/-- What a run measures has names and values a baseline takes, is recorded, and read back
    from the file that is written. -/
def Recordable (compare : Scalar → Scalar → Bool) (sets : Sets) (answers : Answers) (topK : Nat)
    (tag : Str) (settings : Settings) (path : Str) : Prop :=
  ∃ ms, measure exact compare sets answers topK = .ok ms ∧
    (∀ m ∈ ms, ∀ e ∈ m.metrics, IsMetric e.1 ∧ Proportion e.2) ∧
    ∃ b, recorded exact tag sets ms settings = .ok b ∧
      ∃ content, writtenBaseline J b = some content ∧
        readBaseline J path (.file (.ok content)) = .ok b

/-- The numbers a baseline holds that are no metrics have no more digits than are
    converted. -/
def CountsConvert (sets : Sets) (settings : Settings) : Prop :=
  Value.Convertible settings.topK ∧
    ∀ c, Value.Convertible (sets.version c) ∧ Value.Convertible (sets.held c)

/-- A metric's name is written as it is. -/
theorem encodable_of_isMetric {name : Str} (h : IsMetric name) : Value.Encodable name := by
  -- No surrogate is among the first code points.
  have hplain : ∀ c : CodePoint, c.val < 0x80 → ¬ IsHigh c ∧ ¬ IsLow c := by
    intro c hc
    unfold IsHigh IsLow
    omega
  have hnamed : ∀ c : CodePoint, IsNamed c → c.val < 0x80 := by
    rintro c (hc | hc | rfl)
    · unfold IsLower at hc
      omega
    · unfold Numeral.IsDigit at hc
      omega
    · decide
  have hprinted : ∀ {s : Str}, Printable s → ∀ c ∈ s, c.val < 0x80 := fun h c hc =>
    (h c hc).2.trans (by decide)
  -- The name of a field, which a set may choose, is of lower case letters and digits.
  have hfieldName : ∀ f : Str, IsFieldName f → ∀ c ∈ f, c.val < 0x80 := by
    intro f hf
    cases f with
    | nil => exact List.forall_mem_nil _
    | cons c rest =>
        exact List.forall_mem_cons.mpr ⟨hnamed c (Or.inl hf.1), fun d hd => hnamed d (hf.2 d hd)⟩
  have hfield : ∀ name : Str, IsFieldF1 name → ∀ c ∈ name, c.val < 0x80 := by
    rintro name ⟨⟨rest, rfl⟩, hsuffix, hf⟩
    rw [List.drop_left] at hsuffix hf
    rcases hsuffix with ⟨f, rfl⟩
    rw [List.rdrop_append_length] at hf
    rw [List.forall_mem_append, List.forall_mem_append]
    exact ⟨hprinted (by decide), hfieldName f hf, hprinted (by decide)⟩
  intro c hc
  refine hplain c ?_
  rcases h with h | h | ⟨hlast, h⟩
  · have hall : ∀ name ∈ metricNames, Printable name := by decide +kernel
    exact hprinted (hall name h) c hc
  · exact hfield name h c hc
  · -- The newline that ends the name is written as well.
    have hne : name ≠ [] := by
      rintro rfl
      cases hlast
    rw [← List.dropLast_append_getLast hne, List.mem_append, List.mem_singleton] at hc
    rw [List.getLast?_eq_some_getLast hne] at hlast
    rcases hc with hc | rfl
    · exact hfield _ h c hc
    · rw [Option.some.inj hlast]
      decide

/-- What can be written of a baseline: its metrics always can, and their names. -/
theorem writable_baselineValue_iff {b : Baseline} :
    (∀ a ∈ (baselineValue L b).atoms, Writable a) ↔ Value.Encodable b.tag ∧
      Value.Convertible b.settings.topK ∧
      ∀ c, Value.Convertible (b.sets c).version ∧ Value.Convertible (b.sets c).cases := by
  -- An integer is all there is of itself.
  have hint : ∀ n : Int, (∀ a ∈ (Value.int n).atoms, Writable a) ↔ Value.Convertible n :=
    fun n => List.forall_mem_singleton
  have hrecord : ∀ r : SetRecord, (∀ a ∈ (setRecordValue r).atoms, Writable a) ↔
      Value.Convertible r.version ∧ Value.Convertible r.cases := by
    intro r
    have hnames : ∀ name ∈ setRecordNames, Value.Encodable name := by decide +kernel
    refine (forall_mem_atoms_record hnames le_rfl).trans ?_
    rw [List.forall_mem_cons, List.forall_mem_singleton, hint, hint]
  have hsets : (∀ a ∈ (setsValue b.sets).atoms, Writable a) ↔
      ∀ c, Value.Convertible (b.sets c).version ∧ Value.Convertible (b.sets c).cases := by
    have hnames : ∀ name ∈ capabilities.map Capability.value, Value.Encodable name := by
      decide +kernel
    have hall : ∀ c : Capability, c ∈ capabilities := by
      intro c
      cases c <;> decide
    refine (forall_mem_atoms_record hnames le_rfl).trans ?_
    rw [List.forall_mem_map]
    exact ⟨fun h c => (hrecord _).mp (h c (hall c)), fun h c _ => (hrecord _).mpr (h c)⟩
  have hsettings : (∀ a ∈ (record [text "top_k"] [.int b.settings.topK]).atoms, Writable a) ↔
      Value.Convertible b.settings.topK := by
    have hnames : ∀ name ∈ [text "top_k"], Value.Encodable name := by decide +kernel
    refine (forall_mem_atoms_record hnames le_rfl).trans ?_
    rw [List.forall_mem_singleton, hint]
  -- The names of metrics are ASCII, and floating-point numbers can always be written.
  have hmetrics : ∀ a ∈ (metricsValue L b.metrics).atoms, Writable a := by
    unfold metricsValue
    rw [Value.atoms, forall_mem_atomsFields, List.forall_mem_map]
    exact fun e he => ⟨encodable_of_isMetric (b.measurable e he).1,
      List.forall_mem_singleton.mpr trivial⟩
  have htag : (∀ a ∈ (Value.str b.tag).atoms, Writable a) ↔ Value.Encodable b.tag :=
    List.forall_mem_singleton
  have hnames : ∀ name ∈ baselineNames, Value.Encodable name := by decide +kernel
  refine (forall_mem_atoms_record hnames le_rfl).trans ?_
  unfold baselineValues
  rw [List.forall_mem_cons, List.forall_mem_cons, List.forall_mem_cons, List.forall_mem_singleton,
    htag, hsettings, hsets]
  exact ⟨fun h => ⟨h.1, h.2.1, h.2.2.1⟩, fun h => ⟨h.1, h.2.1, h.2.2, hmetrics⟩⟩

theorem stable_baselineValue {b : Baseline} (h : ∀ e ∈ b.metrics, L.Held (some e.2)) :
    ∀ a ∈ (baselineValue L b).atoms, Value.Stable L.read a := by
  have hrecord : ∀ r : SetRecord, ∀ a ∈ (setRecordValue r).atoms, Value.Stable L.read a := by
    intro r
    refine (forall_mem_atoms_record (fun _ _ => trivial) le_rfl).mpr ?_
    simp only [List.forall_mem_cons]
    exact ⟨stable_int L _, stable_int L _, List.forall_mem_nil _⟩
  have hsets : ∀ a ∈ (setsValue b.sets).atoms, Value.Stable L.read a :=
    (forall_mem_atoms_record (fun _ _ => trivial) le_rfl).mpr
      (List.forall_mem_map.mpr fun c _ => hrecord (b.sets c))
  have hsettings : ∀ a ∈ (record [text "top_k"] [.int b.settings.topK]).atoms,
      Value.Stable L.read a :=
    (forall_mem_atoms_record (fun _ _ => trivial) le_rfl).mpr
      (List.forall_mem_singleton.mpr (stable_int L _))
  have hmetrics : ∀ a ∈ (metricsValue L b.metrics).atoms, Value.Stable L.read a := by
    unfold metricsValue
    rw [Value.atoms, forall_mem_atomsFields, List.forall_mem_map]
    exact fun e he => ⟨trivial, List.forall_mem_singleton.mpr (L.written_stable _ (h e he))⟩
  refine (forall_mem_atoms_record (fun _ _ => trivial) le_rfl).mpr ?_
  unfold baselineValues
  simp only [List.forall_mem_cons]
  exact ⟨stable_str L _, hsettings, hsets, hmetrics, List.forall_mem_nil _⟩

/-- A baseline whose values are the machine's is read back from its file exactly if it can be
    written. -/
theorem readBaseline_iff {b : Baseline} (h : ∀ e ∈ b.metrics, L.Held (some e.2)) (path : Str) :
    (∃ content, writtenBaseline J b = some content ∧
      readBaseline J path (.file (.ok content)) = .ok b) ↔
      ∀ a ∈ (baselineValue L b).atoms, Writable a := by
  constructor
  · rintro ⟨content, hcontent, _⟩
    -- What has been written could be.
    unfold writtenBaseline at hcontent
    rcases Option.map_eq_some_iff.mp hcontent with ⟨s, hs, _⟩
    exact J.writable _ s hs
  · intro hwritable
    rcases J.fromJson_toJson _ (fun a ha => ⟨stable_baselineValue h a ha, hwritable a ha⟩)
      (framed_baselineValue L b) with ⟨s, hs, hread⟩
    -- The newline behind the object is blank to the reader.
    have hvalidated : validateJson J (s ++ [0x0A]) = .ok b := by
      unfold validateJson
      simp only [hread, baselineFits_baselineValue L h]
    refine ⟨s ++ [0x0A], by rw [writtenBaseline, hs]; rfl, ?_⟩
    unfold readBaseline document
    simp only [Entry.map, Except.map, hvalidated, readText, bind, Except.bind, pure, Except.pure]

/-- A proportion to six decimals is one. -/
theorem proportion_rounded {v : ℚ} (h : Proportion v) : Proportion (Rounding.rounded 6 v) := by
  have hzero : Rounding.rounded 6 0 = 0 := by
    have hround := Rounding.rounded_intCast_div 6 0
    rwa [Int.cast_zero, zero_div] at hround
  have hone : Rounding.rounded 6 1 = 1 := by
    have hround := Rounding.rounded_intCast_div 6 (10 ^ 6)
    have hdiv : (((10 ^ 6 : ℤ) : ℚ) / 10 ^ 6) = 1 := by norm_num
    rwa [hdiv] at hround
  exact ⟨hzero ▸ Rounding.rounded_mono 6 h.1, hone ▸ Rounding.rounded_mono 6 h.2⟩

variable {compare : Scalar → Scalar → Bool} {sets : Sets} {answers : Answers} {topK : Nat}
  {tag : Str} {settings : Settings} {path : Str}

/-- What a run measures has names and values a baseline takes, is recorded, and is read back
    from its file, exactly if every field that is scored has a name a metric can carry, and the
    tag and the numbers are ones that can be written. -/
theorem recordable_iff
    (hexact : ∀ x, Proportion x → L.Held (some (Rounding.rounded 6 x))) :
    Recordable J compare sets answers topK tag settings path ↔
      NamesCarried sets answers ∧ tag ≠ [] ∧ Value.Encodable tag ∧
        CountsConvert sets settings := by
  -- What is recorded of a run is what it measured, to six decimals.
  have hheld : ∀ {ms b}, measure exact compare sets answers topK = .ok ms →
      recorded exact tag sets ms settings = .ok b → ∀ e ∈ b.metrics, L.Held (some e.2) := by
    rintro ms b hms hb ⟨name, w⟩ he
    rw [(recorded_eq_ok hb).2.2.1] at he
    rcases (mem_recordedMetrics (measured_of_measure hms)).mp he with ⟨m, hm, _, v, hv, rfl⟩
    exact hexact v (proportion_of_measure hms m hm (name, v) hv)
  -- What is recorded of the sets and the settings is what the run was given.
  have hwritable : ∀ {ms b}, recorded exact tag sets ms settings = .ok b →
      ((∀ a ∈ (baselineValue L b).atoms, Writable a) ↔
        Value.Encodable tag ∧ CountsConvert sets settings) := by
    intro ms b hb
    rcases recorded_eq_ok hb with ⟨htag, hsettings, _, hsets⟩
    rw [writable_baselineValue_iff, htag, hsettings]
    simp only [hsets, CountsConvert]
  constructor
  · rintro ⟨ms, hms, hall, b, hb, hfile⟩
    -- A recorded name is a metric's, so the sets' own names are ones.
    have hnames := (isMetric_iff_of_measure hms).mp fun m hm e he => (hall m hm e he).1
    have htag : tag ≠ [] := (recorded_eq_ok hb).1 ▸ b.tag_ne_nil
    have hwritten := (readBaseline_iff J (hheld hms hb) path).mp hfile
    exact ⟨hnames, htag, (hwritable hb).mp hwritten⟩
  · rintro ⟨hnames, htag, hwritten⟩
    rcases exists_measure exact compare sets answers topK with ⟨ms, hms⟩
    have hmetric := (isMetric_iff_of_measure hms).mpr hnames
    have hproportion := proportion_of_measure hms
    have hrecorded : ∃ b, recorded exact tag sets ms settings = .ok b :=
      (exists_recorded_iff hms htag).mpr fun m hm e he =>
        ⟨hmetric m hm e he, proportion_rounded (hproportion m hm e he)⟩
    rcases hrecorded with ⟨b, hb⟩
    exact ⟨ms, hms, fun m hm e he => ⟨hmetric m hm e he, hproportion m hm e he⟩, b, hb,
      (readBaseline_iff J (hheld hms hb) path).mpr ((hwritable hb).mpr hwritten)⟩

end File

section Example

/-- Millionths, as they are written with all their places. -/
def sixPlaces (units : Nat) : Str :=
  Numeral.decimal (units / 10 ^ 6) ++ 0x2E :: Numeral.fixed 10 6 (units % 10 ^ 6)

/-- The number a text with six places is. -/
def sixValue (written : Str) : ℚ :=
  (Numeral.value 10 (written.take (written.length - 7)) : Nat) +
    (Numeral.value 10 (written.drop (written.length - 6)) : Nat) / 10 ^ 6

theorem sixValue_sixPlaces (units : Nat) : sixValue (sixPlaces units) = units / 10 ^ 6 := by
  have hlength : (sixPlaces units).length = (Numeral.decimal (units / 10 ^ 6)).length + 7 := by
    unfold sixPlaces
    rw [List.length_append, List.length_cons, Numeral.length_fixed]
  -- The point stands before the last six places.
  have hwhole : (sixPlaces units).take ((sixPlaces units).length - 7) =
      Numeral.decimal (units / 10 ^ 6) := by
    rw [hlength, Nat.add_sub_cancel]
    exact List.take_left
  have hplaces : (sixPlaces units).drop ((sixPlaces units).length - 6) =
      Numeral.fixed 10 6 (units % 10 ^ 6) := by
    have hsub : (sixPlaces units).length - 6 = (Numeral.decimal (units / 10 ^ 6)).length + 1 := by
      omega
    rw [hsub]
    unfold sixPlaces
    rw [← List.drop_drop, List.drop_left]
    rfl
  have hvalue := Numeral.value_fixed (by decide : 0 < 10) (by decide) 6 (units % 10 ^ 6)
    (Nat.mod_lt _ (by decide))
  have hunits : ((10 ^ 6 * (units / 10 ^ 6) + units % 10 ^ 6 : Nat) : ℚ) = units :=
    congrArg Nat.cast (Nat.div_add_mod units (10 ^ 6))
  unfold sixValue
  rw [hwhole, hplaces, hvalue, Numeral.value_decimal, ← hunits]
  push_cast
  ring

theorem isFraction_sixPlaces (units : Nat) : Value.IsFraction (sixPlaces units) := by
  have hne : Numeral.fixed 10 6 (units % 10 ^ 6) ≠ [] := by
    intro h
    have hlength := congrArg List.length h
    rw [Numeral.length_fixed] at hlength
    cases hlength
  refine ⟨[], Numeral.decimal (units / 10 ^ 6), 0x2E :: Numeral.fixed 10 6 (units % 10 ^ 6), [],
    ?_, Or.inl rfl, Value.isWhole_decimal _,
    Or.inr ⟨_, ⟨hne, fun c hc => Numeral.isDigit_of_mem_fixed hc⟩, rfl⟩, Or.inl rfl,
    Or.inl (List.cons_ne_nil _ _)⟩
  rw [List.nil_append, List.append_nil]
  rfl

/-- A library whose numbers are the millionths. -/
def millionths : Library where
  str := strictLibrary.str
  int := strictLibrary.int
  bool := strictLibrary.bool
  number v := match v with
    | .float written => some (some (sixValue written))
    | _ => none
  date := strictLibrary.date
  scalar := strictLibrary.scalar
  report := strictLibrary.report
  read := id
  Held q := ∃ units : Nat, q = some ((units : ℚ) / 10 ^ 6)
  written q := match q with
    | none => text "nan"
    | some q => sixPlaces (q * 10 ^ 6).num.toNat
  str_eq := strictLibrary.str_eq
  int_eq := strictLibrary.int_eq
  bool_eq := strictLibrary.bool_eq
  date_eq := strictLibrary.date_eq
  scalar_eq := strictLibrary.scalar_eq
  number_eq := by
    rintro _ ⟨units, rfl⟩
    -- A millionth is the quotient of a whole number of them.
    have hunits : ((units / 10 ^ 6 : ℚ) * 10 ^ 6).num.toNat = units := by
      rw [div_mul_cancel₀ _ (by norm_num : (10 ^ 6 : ℚ) ≠ 0), Rat.num_natCast, Int.toNat_natCast]
    simp only [hunits, sixValue_sixPlaces]
  written_stable := by
    rintro _ ⟨units, rfl⟩
    exact ⟨Or.inr (isFraction_sixPlaces _), fun _ => rfl⟩

theorem held_rounded {x : ℚ} (h : Proportion x) :
    millionths.Held (some (Rounding.rounded 6 x)) := by
  have hnonneg : 0 ≤ Rounding.nearest (x * 10 ^ 6) := by
    have hmono := Rounding.nearest_mono (mul_nonneg h.1 (by norm_num : (0 : ℚ) ≤ 10 ^ 6))
    have hzero := Rounding.nearest_intCast 0
    rw [Int.cast_zero] at hzero
    rwa [hzero] at hmono
  refine ⟨(Rounding.nearest (x * 10 ^ 6)).toNat, ?_⟩
  have hcast : ((Rounding.nearest (x * 10 ^ 6)).toNat : ℚ) = Rounding.nearest (x * 10 ^ 6) := by
    exact_mod_cast congrArg (Int.cast : ℤ → ℚ) (Int.toNat_of_nonneg hnonneg)
  rw [hcast]
  rfl

/-- Texts with every item on a line of its own, two spaces for each depth. -/
def indentedText (L : Library) : JsonText L where
  -- What cannot be written raises before anything is.
  toJson v := if ∀ a ∈ v.atoms, Writable a then some (Value.dumps (Value.indented 2) 0 v) else none
  fromJson s := match Value.loads L.read 3 s with
    | .ok v => .ok v
    | .error _ => .error (text "Invalid JSON")
  writable v s h := by
    split at h
    · assumption
    · cases h
  fromJson_toJson v h hframed := by
    -- Writable is all that being stable leaves open.
    have hsound : ∀ a ∈ v.atoms, Value.Sound L.read a := by
      intro a ha
      have hatom := h a ha
      cases a with
      | int n => exact hatom.2
      | null | bool | float | str | arr | obj => exact hatom.1
    have hblank : ∀ c ∈ ([0x0A] : Str), Value.IsBlank c :=
      List.forall_mem_singleton.mpr (by decide)
    refine ⟨_, if_pos fun a ha => (h a ha).2, ?_⟩
    rw [Value.loads_dumps_append hsound hframed hblank]

/-- A run with all three fields right is recorded and read back. -/
theorem recordable_right :
    Recordable (indentedText millionths) (fun a b => a = b) oneDocument (answering 1) 5
      (text "v1") ⟨5, by decide⟩ (text "v1.json") := by
  refine (recordable_iff (indentedText millionths) fun _ => held_rounded).mpr
    ⟨fun _ => List.forall_mem_singleton.mpr ?_, by decide, by decide, by decide +kernel, ?_⟩
  · exact (by decide : ∀ name ∈ [text "a", text "b", text "d"], IsFieldName name)
  · intro c
    cases c <;> decide +kernel

/-- A field whose name ends with a newline. -/
def newlineField : Fields where
  entries := [(text "a\n", .int 1)]
  nodup := List.nodup_singleton _
  named := List.forall_mem_singleton.mpr (by decide +kernel)

/-- One document, with that field. -/
def newlineDocument : Sets where
  extraction := {
    version := 1
    description := []
    cases := [⟨text "c", [], newlineField, List.cons_ne_nil _ _⟩]
    path := []
    version_pos := Nat.one_pos }
  retrieval := ⟨1, [], [], [], Nat.one_pos⟩
  classification := ⟨1, [], [], [], Nat.one_pos⟩

/-- Its metric's name is none a baseline takes. -/
theorem not_recordable_newline :
    ¬ Recordable (indentedText millionths) (fun a b => a = b) newlineDocument (answering 1) 5
      (text "v1") ⟨5, by decide⟩ (text "v1.json") := by
  rintro ⟨ms, hms, hall, _⟩
  have hnames := (isMetric_iff_of_measure hms).mp fun m hm e he => (hall m hm e he).1
  have hname := hnames nofun _ (List.mem_singleton_self _) (text "a\n") (List.mem_singleton_self _)
  exact absurd hname (by decide)

end Example

end Evaluation

end ClaimTriage
