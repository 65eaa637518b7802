import ClaimTriage.Evaluation.Record

/-!
# The Status of a Judging Run

A judging run is to say which of three things happened: an artefact is not what
it claims to be, a rule fired, or none did. It says the first of them only where
a reader refused by name, and what else is raised on the way leaves it with the
status of a rule that fired.

One thing is. Parsing a line raises more than one way, and only a text that is
not JSON is caught; so a line with an integer past the interpreter's limit, or
nested past its depth, is not refused. What is read of an artefact that is what
it claims to be is measured and judged whatever it is.

## Main definitions

* `Escaped`: What was raised is not a refusal.
* `Unparsed`: A line that is neither JSON nor refused as not being it.
* `Escapes`: What a run reads first that goes wrong without being refused.
* `Artefacts`: The artefacts of a run are what they claim to be.
* `ExitCodeHolds`: The status of a run says which of the three happened.

## Theorems

* `escaped_readSet`: When a set's reader raises what is not a refusal.
* `escaped_readOne`: When an answers file's does.
* `escaped_outcomeOf`: When a judging run does.
* `exitCode_iff`: The status of a run is right exactly when it does not.
-/

namespace ClaimTriage

namespace Evaluation

open Theory Text

section Escape

variable {α β : Type}

/-- What was raised is not a refusal of the readers. -/
def Escaped (x : Except Raised α) : Prop :=
  ∃ e, x = .error e ∧ ∀ message, e ≠ .unreadable message

theorem not_escaped_ok (a : α) : ¬ Escaped (.ok a : Except Raised α) := by
  rintro ⟨e, h, _⟩
  cases h

theorem not_escaped_unreadable (message : Str) :
    ¬ Escaped (.error (.unreadable message) : Except Raised α) := by
  rintro ⟨e, h, hother⟩
  cases h
  exact hother message rfl

/-- What escapes from two steps escapes from the first, or from the second once
    the first has succeeded. -/
theorem escaped_bind {x : Except Raised α} {f : α → Except Raised β} :
    Escaped (x >>= f) ↔ Escaped x ∨ ∃ a, x = .ok a ∧ Escaped (f a) := by
  unfold Escaped
  simp only [Failing.bind_eq_error]
  constructor
  · rintro ⟨e, hx | ⟨a, ha, hf⟩, hother⟩
    · exact Or.inl ⟨e, hx, hother⟩
    · exact Or.inr ⟨a, ha, e, hf, hother⟩
  · rintro (⟨e, hx, hother⟩ | ⟨a, ha, e, hf, hother⟩)
    · exact ⟨e, Or.inl hx, hother⟩
    · exact ⟨e, Or.inr ⟨a, ha, hf⟩, hother⟩

theorem escaped_mapM {f : α → Except Raised β} {l : List α} :
    Escaped (l.mapM f) ↔
      ∃ pre a post, l = pre ++ a :: post ∧ (∀ p ∈ pre, ∃ b, f p = .ok b) ∧ Escaped (f a) := by
  unfold Escaped
  simp only [Failing.mapM_eq_error]
  constructor
  · rintro ⟨e, ⟨pre, a, post, hsplit, hpre, ha⟩, hother⟩
    exact ⟨pre, a, post, hsplit, hpre, e, ha, hother⟩
  · rintro ⟨pre, a, post, hsplit, hpre, e, ha, hother⟩
    exact ⟨e, ⟨pre, a, post, hsplit, hpre, ha⟩, hother⟩

/-- A check that refuses lets nothing escape but what comes after it. -/
theorem escaped_check {p : Prop} [Decidable p] {message : Str} {rest : PUnit → Except Raised α} :
    Escaped (if p then (throw (.unreadable message) >>= rest) else rest ()) ↔
      ¬ p ∧ Escaped (rest ()) := by
  by_cases hp : p
  · rw [if_pos hp]
    exact ⟨fun h => absurd h (not_escaped_unreadable message), fun h => absurd hp h.1⟩
  · rw [if_neg hp]
    exact ⟨fun h => ⟨hp, h⟩, fun h => h.2⟩

end Escape

section Readers

variable {V α : Type} {loads : Str → Loaded V} {repr : Str → Str}

variable (loads) in
/-- A line that is not JSON and is not refused as that: an integer of it has too
    many digits, or it is nested too deep. -/
def Unparsed (line : Str) : Prop :=
  loads line = .overlong ∨ loads line = .nested

variable (loads) in
/-- A line is JSON of what a model takes as this. -/
def ReadAs (model : Model V α) (line : Str) (a : α) : Prop :=
  ∃ v, loads line = .value v ∧ model.validate v = .ok a

variable (loads) in
/-- The first of these lines that is not good is not parsed. -/
def Reached (good : Str → Prop) (found : List (Str × Nat)) : Prop :=
  ∃ pre l post, found = pre ++ l :: post ∧ (∀ p ∈ pre, good p.1) ∧ Unparsed loads l.1

theorem not_escaped_readText (path : Str) (e : Entry (Read α)) : ¬ Escaped (readText path e) := by
  cases e with
  | file content =>
      cases content with
      | ok content => exact not_escaped_ok content
      | error why => exact not_escaped_unreadable _
  | absent => exact not_escaped_unreadable _
  | directory => exact not_escaped_unreadable _

theorem not_escaped_lines (path : Str) (e : Entry (Read Str)) : ¬ Escaped (lines path e) := by
  unfold lines
  rw [escaped_bind]
  rintro (h | ⟨content, _, h⟩)
  · exact not_escaped_readText path e h
  · exact not_escaped_ok _ h

theorem not_escaped_document (what path : Str) (e : Entry (Read (Except Str α))) :
    ¬ Escaped (document what path e) := by
  unfold document
  rw [escaped_bind]
  rintro (h | ⟨content, _, h⟩)
  · exact not_escaped_readText path e h
  · cases content with
    | ok a => exact not_escaped_ok a h
    | error wrong => exact not_escaped_unreadable _ h

theorem not_escaped_onlyKnown (d : Folder) (what : Str) : ¬ Escaped (onlyKnown d what) := by
  unfold onlyKnown
  simp only
  split
  · exact not_escaped_ok ()
  · exact not_escaped_unreadable _

theorem not_escaped_refuseRepeats (path : Str) (seen ids : List Str) :
    ¬ Escaped (refuseRepeats repr path seen ids) := by
  induction ids generalizing seen with
  | nil => exact not_escaped_ok ()
  | cons id rest ih =>
      unfold refuseRepeats
      split
      · exact not_escaped_unreadable _
      · exact ih (id :: seen)

theorem not_escaped_validated (model : Model V α) (v : V) (where_ : Str) :
    ¬ Escaped (validated model v where_) := by
  unfold validated
  cases model.validate v with
  | ok a => exact not_escaped_ok a
  | error wrong => exact not_escaped_unreadable _

theorem escaped_parsed {model : Model V α} {line path : Str} {number : Nat} :
    Escaped (parsed loads model line path number) ↔ Unparsed loads line := by
  unfold parsed Unparsed
  cases loads line with
  | value v =>
      exact ⟨fun h => absurd h (not_escaped_validated model v _), fun h => h.elim nofun nofun⟩
  | malformed message =>
      exact ⟨fun h => absurd h (not_escaped_unreadable _), fun h => h.elim nofun nofun⟩
  | overlong => exact ⟨fun _ => Or.inl rfl, fun _ => ⟨.valueError, rfl, nofun⟩⟩
  | nested => exact ⟨fun _ => Or.inr rfl, fun _ => ⟨.recursionError, rfl, nofun⟩⟩

theorem validated_eq_ok {model : Model V α} {v : V} {where_ : Str} {a : α} :
    validated model v where_ = .ok a ↔ model.validate v = .ok a := by
  unfold validated
  cases model.validate v with
  | ok b => simp only [Except.ok.injEq]
  | error wrong => exact ⟨nofun, nofun⟩

theorem parsed_eq_ok {model : Model V α} {line path : Str} {number : Nat} {a : α} :
    parsed loads model line path number = .ok a ↔ ReadAs loads model line a := by
  unfold parsed ReadAs
  cases loads line with
  | value v =>
      change validated model v (place path number) = .ok a ↔ _
      rw [validated_eq_ok]
      exact ⟨fun h => ⟨v, rfl, h⟩, fun ⟨_, hw, h⟩ => Loaded.value.inj hw ▸ h⟩
  | malformed message | overlong | nested =>
      exact ⟨nofun, fun ⟨_, hw, _⟩ => absurd hw nofun⟩

variable (loads) in
/-- The first thing wrong with a set is a line that is not parsed: its header's, or
    one of its cases' once its header is its own. -/
def SetEscapes (models : SetModels V) (model : Model V α) (capability : Capability) (path : Str)
    (e : Entry (Read Str)) : Prop :=
  ∃ first rest, lines path e = .ok (first :: rest) ∧
    (Unparsed loads first.1 ∨
      (∃ header, ReadAs loads models.header first.1 header ∧ header.capability = capability) ∧
        Reached loads (fun line => ∃ a, ReadAs loads model line a) rest)

theorem escaped_readSet {models : SetModels V} {model : Model V α} {caseId : α → Str}
    {capability : Capability} {path : Str} {e : Entry (Read Str)} :
    Escaped (readSet loads repr models model caseId capability path e) ↔
      SetEscapes loads models model capability path e := by
  unfold readSet SetEscapes
  rw [escaped_bind]
  constructor
  · rintro (h | ⟨found, hfound, h⟩)
    · -- A file that is no text is refused by name, and so is one without a line.
      exact absurd h (not_escaped_lines path e)
    · cases found with
      | nil => exact absurd h (not_escaped_unreadable _)
      | cons first rest =>
          refine ⟨first, rest, hfound, ?_⟩
          rcases escaped_bind.mp h with hheader | ⟨header, hheader, h⟩
          · -- Past the header, a case raises where all before it were taken.
            exact Or.inl (escaped_parsed.mp hheader)
          · rw [escaped_check, not_not] at h
            refine Or.inr ⟨⟨header, parsed_eq_ok.mp hheader, h.1⟩, ?_⟩
            rcases escaped_bind.mp h.2 with hcases | ⟨cases, _, h⟩
            · rcases escaped_mapM.mp hcases with ⟨pre, l, post, hsplit, hpre, hl⟩
              refine ⟨pre, l, post, hsplit, fun p hp => ?_, escaped_parsed.mp hl⟩
              rcases hpre p hp with ⟨a, ha⟩
              exact ⟨a, parsed_eq_ok.mp ha⟩
            · rcases escaped_bind.mp h with hrepeats | ⟨_, _, h⟩
              · -- An id that comes twice is refused by name.
                exact absurd hrepeats (not_escaped_refuseRepeats path [] _)
              · exact absurd h (not_escaped_ok _)
  · rintro ⟨first, rest, hfound, h⟩
    refine Or.inr ⟨first :: rest, hfound, ?_⟩
    refine escaped_bind.mpr ?_
    rcases h with hfirst | ⟨⟨header, hheader, hcapability⟩, pre, l, post, hsplit, hpre, hl⟩
    · exact Or.inl (escaped_parsed.mpr hfirst)
    · refine Or.inr ⟨header, parsed_eq_ok.mpr hheader, ?_⟩
      rw [escaped_check, not_not]
      refine ⟨hcapability, escaped_bind.mpr (Or.inl (escaped_mapM.mpr ?_))⟩
      refine ⟨pre, l, post, hsplit, fun p hp => ?_, escaped_parsed.mpr hl⟩
      rcases hpre p hp with ⟨a, ha⟩
      exact ⟨a, parsed_eq_ok.mpr ha⟩

variable (loads) (repr) in
/-- The first thing wrong with a directory of sets is such a line of one of them,
    those before it being read. -/
def SetsEscape (models : SetModels V) (d : Folder) : Prop :=
  onlyKnown d (text "a set") = .ok () ∧ (∀ c : Capability, (d.at (setFile c)).IsFile) ∧
    (SetEscapes loads models models.extraction .extraction (d.join (setFile .extraction))
        (d.at (setFile .extraction)) ∨
      (∃ golden, readSet loads repr models models.extraction ExtractionCase.caseId .extraction
          (d.join (setFile .extraction)) (d.at (setFile .extraction)) = .ok golden) ∧
        (SetEscapes loads models models.retrieval .retrieval (d.join (setFile .retrieval))
            (d.at (setFile .retrieval)) ∨
          (∃ golden, readSet loads repr models models.retrieval RetrievalCase.caseId .retrieval
              (d.join (setFile .retrieval)) (d.at (setFile .retrieval)) = .ok golden) ∧
            SetEscapes loads models models.classification .classification
              (d.join (setFile .classification)) (d.at (setFile .classification))))

theorem missing_eq_nil_iff {d : Folder} :
    ((capabilities.map setFile).filter fun name => ¬ (d.at name).IsFile) = [] ↔
      ∀ c : Capability, (d.at (setFile c)).IsFile := by
  rw [List.filter_eq_nil_iff]
  constructor
  · intro h c
    have hc : c ∈ capabilities := by cases c <;> decide
    have hfile := h (setFile c) (List.mem_map_of_mem hc)
    rw [decide_eq_true_eq, not_not] at hfile
    exact hfile
  · intro h name hname
    rcases List.mem_map.mp hname with ⟨c, _, rfl⟩
    rw [decide_eq_true_eq, not_not]
    exact h c

theorem escaped_readSets {models : SetModels V} {d : Folder} :
    Escaped (readSets loads repr models d) ↔ SetsEscape loads repr models d := by
  unfold readSets SetsEscape
  simp only [escaped_bind, escaped_check, escaped_readSet, not_escaped_onlyKnown, not_escaped_ok,
    missing_eq_nil_iff, not_not, pure, Except.pure]
  simp only [false_or, and_false, exists_false, or_false, exists_and_right,
    Unique.exists_iff, PUnit.default_eq_unit]

theorem reached_nil {good : Str → Prop} : ¬ Reached loads good [] := by
  rintro ⟨pre, l, post, hsplit, _⟩
  exact absurd hsplit.symm (List.append_ne_nil_of_right_ne_nil _ (List.cons_ne_nil _ _))

theorem reached_cons {good : Str → Prop} {l : Str × Nat} {rest : List (Str × Nat)} :
    Reached loads good (l :: rest) ↔ Unparsed loads l.1 ∨ good l.1 ∧ Reached loads good rest := by
  constructor
  · -- The line that raises is the first one, or one behind it.
    rintro ⟨pre, m, post, hsplit, hpre, hm⟩
    cases pre with
    | nil =>
        cases hsplit
        exact Or.inl hm
    | cons p pre =>
        cases hsplit
        refine Or.inr ⟨hpre l List.mem_cons_self, pre, m, post, rfl, fun q hq => ?_, hm⟩
        exact hpre q (List.mem_cons_of_mem _ hq)
  · rintro (hl | ⟨hgood, pre, m, post, rfl, hpre, hm⟩)
    · exact ⟨[], l, rest, rfl, fun _ h => absurd h List.not_mem_nil, hl⟩
    · refine ⟨l :: pre, m, post, rfl, fun q hq => ?_, hm⟩
      rcases List.mem_cons.mp hq with rfl | hq
      · exact hgood
      · exact hpre q hq

variable (loads) in
/-- A line of an answers file is the answer of a model to a case that is held. -/
def AnswerOf (recorded : Model V (RecordedAnswer V)) (model : Model V α) (held : List Str)
    (line : Str) : Prop :=
  ∃ answer a, ReadAs loads recorded line answer ∧ answer.caseId ∈ held ∧
    model.validate answer.answer = .ok a

theorem escaped_readLines {recorded : Model V (RecordedAnswer V)} {model : Model V α}
    {capability : Capability} {held : List Str} {path : Str} {found : List (Str × Nat)} :
    Escaped (readLines loads repr recorded model capability held path found) ↔
      Reached loads (AnswerOf loads recorded model held) found := by
  induction found with
  | nil => exact ⟨fun h => absurd h (not_escaped_ok _), fun h => absurd h reached_nil⟩
  | cons l rest ih =>
      rcases l with ⟨line, number⟩
      unfold readLines
      -- A line is parsed, its case looked up and its answer taken; only the first can escape.
      simp only [escaped_bind, escaped_check, escaped_parsed, not_escaped_validated,
        not_escaped_ok, parsed_eq_ok, validated_eq_ok, reached_cons, ih, not_not, pure, Except.pure]
      simp only [false_or, and_false, exists_false, or_false]
      unfold AnswerOf
      refine or_congr_right ?_
      constructor
      · rintro ⟨answer, hanswer, hheld, a, ha, hrest⟩
        exact ⟨⟨answer, a, hanswer, hheld, ha⟩, hrest⟩
      · rintro ⟨⟨answer, a, hanswer, hheld, ha⟩, hrest⟩
        exact ⟨answer, hanswer, hheld, a, ha, hrest⟩

variable (loads) in
/-- The first thing wrong with a file of answers is a line that is not parsed. -/
def AnswersEscape (recorded : Model V (RecordedAnswer V)) (model : Model V α) (held : List Str)
    (path : Str) (e : Entry (Read Str)) : Prop :=
  held ≠ [] ∧ e.IsFile ∧
    ∃ found, lines path e = .ok found ∧ Reached loads (AnswerOf loads recorded model held) found

theorem escaped_readOne {recorded : Model V (RecordedAnswer V)} {model : Model V α}
    {capability : Capability} {held : List Str} {path : Str} {e : Entry (Read Str)} :
    Escaped (readOne loads repr recorded model capability held path e) ↔
      AnswersEscape loads recorded model held path e := by
  unfold readOne AnswersEscape
  by_cases hheld : held = []
  · simp only [hheld, if_true, escaped_check, not_escaped_ok, pure, Except.pure, and_false,
      ne_eq, not_true_eq_false, false_and]
  · simp only [hheld, if_false, escaped_bind, escaped_check, escaped_readLines, not_escaped_lines,
      not_escaped_refuseRepeats, not_escaped_ok, not_not, pure, Except.pure]
    simp only [false_or, and_false, exists_false, or_false, ne_eq]
    exact ⟨fun h => ⟨hheld, h⟩, fun h => h.2⟩

variable (loads) (repr) in
/-- The first thing wrong with a directory of answers is such a line of one of its
    files, those before it being read. -/
def PredictionsEscape (models : AnswerModels V) (d : Folder) (sets : Sets) : Prop :=
  onlyKnown d (text "an answers file") = .ok () ∧
    (AnswersEscape loads models.recorded models.extraction
        (sets.extraction.cases.map ExtractionCase.caseId) (d.join (setFile .extraction))
        (d.at (setFile .extraction)) ∨
      (∃ answers, readOne loads repr models.recorded models.extraction .extraction
          (sets.extraction.cases.map ExtractionCase.caseId) (d.join (setFile .extraction))
          (d.at (setFile .extraction)) = .ok answers) ∧
        (AnswersEscape loads models.recorded models.retrieval
            (sets.retrieval.cases.map RetrievalCase.caseId) (d.join (setFile .retrieval))
            (d.at (setFile .retrieval)) ∨
          (∃ answers, readOne loads repr models.recorded models.retrieval .retrieval
              (sets.retrieval.cases.map RetrievalCase.caseId) (d.join (setFile .retrieval))
              (d.at (setFile .retrieval)) = .ok answers) ∧
            AnswersEscape loads models.recorded models.classification
              (sets.classification.cases.map ClassificationCase.caseId)
              (d.join (setFile .classification)) (d.at (setFile .classification))))

theorem escaped_readAnswers {models : AnswerModels V} {d : Folder} {sets : Sets} :
    Escaped (readAnswers loads repr models d sets) ↔
      PredictionsEscape loads repr models d sets := by
  unfold readAnswers PredictionsEscape
  simp only [escaped_bind, escaped_readOne, not_escaped_onlyKnown, not_escaped_ok, pure,
    Except.pure]
  simp only [false_or, and_false, exists_false, or_false, exists_and_right, Unique.exists_iff,
    PUnit.default_eq_unit]

end Readers

section Run

variable {V : Type} (F : Formats V) (A : Arithmetic) (compare : Scalar → Scalar → Bool)

/-- The first thing wrong with what a run reads is a line that is neither JSON nor
    refused as not being it. -/
def Escapes (args : Arguments) : Prop :=
  SetsEscape F.loads F.repr F.sets args.sets ∨
    ∃ sets, readSets F.loads F.repr F.sets args.sets = .ok sets ∧
      (∃ rules, document (text "the declared rules") args.rulesPath args.rules = .ok rules) ∧
      ∃ predictions ∈ args.predictions,
        PredictionsEscape F.loads F.repr F.answers predictions sets

/-- What a run reads is what it claims to be: these sets, these rules, these
    answers, this tag and this baseline. -/
structure Artefacts (args : Arguments) (file : BaselineFile) (sets : Sets) (rules : Rules)
    (answers : Answers) (tag : Str) (baseline : Baseline) : Prop where
  readSets : readSets F.loads F.repr F.sets args.sets = .ok sets
  readRules : document (text "the declared rules") args.rulesPath args.rules = .ok rules
  readAnswers : answersOf F args sets = .ok answers
  readTag : tagOf args = .ok tag
  readBaseline : baselineOf F A args tag sets file = .ok baseline

/-- The status of a run says which of the three happened: an artefact is not what
    it claims to be, and otherwise whether the judgement reports a failure. -/
def ExitCodeHolds (args : Arguments) (file : BaselineFile) : Prop :=
  (∀ sets rules answers tag baseline, Artefacts F A args file sets rules answers tag baseline →
    ∃ ms, measure A compare sets answers args.topK = .ok ms ∧
      (main F A compare args file).1 =
        .ok (if (judge A ms baseline rules args.settings).failures = [] then 0 else 1)) ∧
  ((¬ ∃ sets rules answers tag baseline,
      Artefacts F A args file sets rules answers tag baseline) →
    (main F A compare args file).1 = .ok 2)

variable {F} {A} {compare}

theorem not_escaped_tagOf (args : Arguments) : ¬ Escaped (tagOf args) := by
  unfold tagOf
  cases args.tag with
  | some tag => exact not_escaped_ok tag
  | none =>
      cases args.distribution with
      | ok version => exact not_escaped_ok _
      | error notInstalled => exact not_escaped_unreadable _

/-- Nothing but a refusal comes of a judging run's baseline: it records nothing, and
    so has nothing to make that a model might refuse. -/
theorem not_escaped_baselineOf {args : Arguments} (hrecord : args.record = false) (tag : Str)
    (sets : Sets) (file : BaselineFile) : ¬ Escaped (baselineOf F A args tag sets file) := by
  unfold baselineOf
  split
  · simp only [hrecord, escaped_check]
    rintro ⟨hnot, _⟩
    exact hnot nofun
  · simp only [escaped_bind, escaped_check, not_escaped_document, not_escaped_ok, pure,
      Except.pure, and_false, exists_false, or_false, not_false_eq_true]

theorem escaped_answersOf {args : Arguments} {sets : Sets} :
    Escaped (answersOf F args sets) ↔ ∃ predictions ∈ args.predictions,
      PredictionsEscape F.loads F.repr F.answers predictions sets := by
  unfold answersOf
  cases args.predictions with
  | none =>
      refine ⟨fun h => absurd h (not_escaped_ok _), ?_⟩
      rintro ⟨predictions, hnone, _⟩
      exact absurd hnone (Option.not_mem_none predictions)
  | some predictions =>
      simp only [escaped_readAnswers, Option.mem_some_iff, exists_eq_left']

/-- Nothing comes of measuring but measurements. -/
theorem not_escaped_measure (sets : Sets) (answers : Answers) (topK : Nat) :
    ¬ Escaped (measure A compare sets answers topK) := by
  rcases exists_measure A compare sets answers topK with ⟨ms, hms⟩
  rw [hms]
  exact not_escaped_ok ms

variable (A) (compare) in
/-- What escapes from a judging run is what is first wrong with what it reads. -/
theorem escaped_outcomeOf {args : Arguments} (hrecord : args.record = false) (file : BaselineFile) :
    Escaped (outcomeOf F A compare args file) ↔ Escapes F args := by
  unfold outcomeOf Escapes
  simp only [escaped_bind, escaped_readSets, escaped_answersOf, not_escaped_measure,
    not_escaped_document, not_escaped_tagOf, not_escaped_baselineOf hrecord, not_escaped_ok, pure,
    Except.pure]
  simp only [false_or, and_false, exists_false, or_false, exists_and_right]

/-- A run that has judged has read what it claims to be and measured it. -/
theorem outcomeOf_of_artefacts {args : Arguments} {file : BaselineFile} {sets : Sets}
    {rules : Rules} {answers : Answers} {tag : Str} {baseline : Baseline}
    (h : Artefacts F A args file sets rules answers tag baseline) {ms : List Measurement}
    (hms : measure A compare sets answers args.topK = .ok ms) :
    ∃ j, outcomeOf F A compare args file = .ok j ∧
      j.outcome = judge A ms baseline rules args.settings := by
  unfold outcomeOf
  simp only [Failing.bind_eq_ok]
  exact ⟨_, ⟨sets, h.readSets, rules, h.readRules, answers, h.readAnswers, ms, hms, tag, h.readTag,
    baseline, h.readBaseline, rfl⟩, rfl⟩

/-- A judging run's status is that of what it judged, or that of a refusal, or it has
    none. -/
theorem main_of_judging {args : Arguments} (hrecord : args.record = false) (file : BaselineFile) :
    (main F A compare args file).1 =
      match outcomeOf F A compare args file with
      | .ok j => .ok (statusOf j.outcome)
      | .error (.unreadable _) => .ok 2
      | .error e => .error e := by
  unfold main run
  cases outcomeOf F A compare args file with
  | ok j =>
      simp only [bind, Except.bind, hrecord]
      rfl
  | error e => cases e <;> rfl

variable (F) (A) (compare) in
/-- The status of a judging run says which of the three happened exactly if nothing
    it reads escapes: no line, where the readers come to it, is neither JSON nor
    refused as not being it. -/
theorem exitCode_iff {args : Arguments} (hrecord : args.record = false) (file : BaselineFile) :
    ExitCodeHolds F A compare args file ↔ ¬ Escapes F args := by
  rw [← escaped_outcomeOf A compare hrecord file]
  unfold ExitCodeHolds
  rw [main_of_judging hrecord]
  constructor
  · rintro ⟨hread, hunread⟩ ⟨e, he, hother⟩
    -- What escapes is no status, whether or not the artefacts are what they claim.
    have hstatus : ∃ status : Nat, (match outcomeOf F A compare args file with
        | .ok j => .ok (statusOf j.outcome)
        | .error (.unreadable _) => .ok 2
        | .error e => .error e : Except Raised Nat) = .ok status := by
      -- The claim names a status either way.
      by_cases h : ∃ sets rules answers tag baseline,
          Artefacts F A args file sets rules answers tag baseline
      · rcases h with ⟨sets, rules, answers, tag, baseline, h⟩
        rcases hread sets rules answers tag baseline h with ⟨ms, _, hmain⟩
        exact ⟨_, hmain⟩
      · exact ⟨2, hunread h⟩
    rcases hstatus with ⟨status, hstatus⟩
    rw [he] at hstatus
    cases e with
    | unreadable message => exact hother message rfl
    | valueError | recursionError | zeroDivision | validationError | osError | endless =>
        cases hstatus
  · intro hescaped
    refine ⟨fun sets rules answers tag baseline h => ?_, fun hunread => ?_⟩
    · rcases exists_measure A compare sets answers args.topK with ⟨ms, hms⟩
      rcases outcomeOf_of_artefacts h hms with ⟨j, hj, houtcome⟩
      refine ⟨ms, hms, ?_⟩
      rw [hj, ← houtcome]
      rfl
    · cases houtcome : outcomeOf F A compare args file with
      | ok j =>
          -- A verdict is only come to where every artefact was read.
          rcases outcomeOf_eq_ok houtcome with
            ⟨answers, hsets, hrules, hanswers, _, htag, hbaseline, _⟩
          exact absurd ⟨j.sets, j.rules, answers, j.tag, j.baseline, hsets, hrules, hanswers, htag,
            hbaseline⟩ hunread
      | error e =>
          rw [houtcome] at hescaped
          cases e with
          | unreadable message => rfl
          | valueError | recursionError | zeroDivision | validationError | osError | endless =>
              exact absurd ⟨_, rfl, nofun⟩ hescaped

end Run

section Example

/-- A set's header whose version has more digits than the interpreter converts. -/
def overlongLine : Str :=
  text "\x7b\"capability\": \"extraction\", \"version\": " ++
    List.replicate 4301 (0x31 : CodePoint) ++ text ", \"description\": \"sample\"\x7d\n"

/-- How many digits a line has. -/
def digitsIn (line : Str) : Nat :=
  line.countP fun c => 0x30 ≤ c.val ∧ c.val ≤ 0x39

/-- The formats of the example, and the interpreter's limit. -/
def limitedFormats : Formats SampleValue :=
  { sampleFormats with
    loads := fun line => if 4300 < digitsIn line then .overlong else sampleFormats.loads line }

/-- The sets of the example, the first with this line for a header. -/
def setsUnder (header : Str) : Folder :=
  { sampleSets with
    entries := (setFile .extraction, .file (.ok header)) :: sampleSets.entries.tail }

/-- A run that judges what this line is the first of. -/
def judgingRun (header : Str) : Arguments :=
  { sampleRun true true with
    sets := setsUnder header
    record := false }

/-- A header no interpreter reads leaves the run with the status of a rule that
    fired. -/
theorem not_exitCode_overlong :
    ¬ ExitCodeHolds limitedFormats exact sampleCompare (judgingRun overlongLine) .absent := by
  have hmain : (main limitedFormats exact sampleCompare (judgingRun overlongLine) .absent).1 =
      .error .valueError := by decide +kernel
  rintro ⟨hread, hunread⟩
  rw [hmain] at hread hunread
  by_cases h : ∃ sets rules answers tag baseline,
      Artefacts limitedFormats exact (judgingRun overlongLine) .absent sets rules answers
        tag baseline
  · rcases h with ⟨sets, rules, answers, tag, baseline, h⟩
    rcases hread sets rules answers tag baseline h with ⟨_, _, hstatus⟩
    cases hstatus
  · cases hunread h

/-- With a header there is, the run is refused for want of a baseline, by its
    status. -/
theorem exitCode_unrecorded :
    ExitCodeHolds limitedFormats exact sampleCompare (judgingRun (headerLine .extraction))
      .absent := by
  refine (exitCode_iff limitedFormats exact sampleCompare rfl .absent).mpr fun hescapes => ?_
  have hmain : (main limitedFormats exact sampleCompare (judgingRun (headerLine .extraction))
      .absent).1 = .ok 2 := by decide +kernel
  rcases (escaped_outcomeOf exact sampleCompare rfl .absent).mpr hescapes with
    ⟨e, he, hother⟩
  rw [main_of_judging rfl, he] at hmain
  cases e with
  | unreadable message => exact hother message rfl
  | valueError | recursionError | zeroDivision | validationError | osError | endless =>
      cases hmain

end Example

end Evaluation

end ClaimTriage
