import ClaimTriage.Evaluation.ExitCode
import ClaimTriage.Evaluation.Record
import ClaimTriage.Evaluation.Unordered
import ClaimTriage.Evaluation.Written

/-!
# Lines in Any Order

What a run comes to does not depend on the order in which the cases of a set stand
in its file, nor on that of the answers in theirs, nor on blank lines, on what ends
a line or on the blanks around one.

A set's first line is its header, so that one has to stay. The rest are read one by
one and kept in their order, so the cases that are read are in another order; a case
that is named twice is so wherever it stands.

It is what a run comes to that does not depend on the order. Which of two flaws it is
refused for does, and with it whether it is refused or ended by something uncaught.

## Main definitions

* `content`: The lines that are filled, without the blanks around them.
* `HeaderFirst`: The same first line, and the others in another order.
* `Entry.Alike`, `Folder.Alike`: Files, and directories, whose lines are related.
* `SetOf`, `AnswersOf`: What a set and a file of answers are read as.
* `Arguments.Reordered`: What a run reads, its lines in another order.

## Theorems

* `readSet_eq_ok_iff`, `readOne_eq_ok_iff`: What is read.
* `readSets_reordered`, `readAnswers_reordered`: It is read in any order.
* `outcomeOf_reordered`: And comes to the same outcome.
* `run_of_reordered`: A run comes to the same status, measures the same, and leaves
  the same baseline.
-/

namespace ClaimTriage

namespace Evaluation

open Theory Text

/-- What a file holds, to a reader of its lines. -/
def content (s : Str) : List Str :=
  (filled (splitLines s)).map strip

/-- The same first line, and the others in another order. -/
def HeaderFirst (ls ls' : List Str) : Prop :=
  ls.head? = ls'.head? ∧ ls.tail.Perm ls'.tail

/-- What stands under a name is what stood there, or a text whose lines are related to
    the lines there were. -/
inductive Entry.Alike (R : List Str → List Str → Prop) :
    Entry (Read Str) → Entry (Read Str) → Prop
  | same (e : Entry (Read Str)) : Alike R e e
  | text {s s' : Str} : R (content s) (content s') → Alike R (.file (.ok s)) (.file (.ok s'))

/-- The same names in a directory, and under each capability's what is alike. -/
structure Folder.Alike (R : List Str → List Str → Prop) (d d' : Folder) : Prop where
  path : d'.path = d.path
  names : d'.entries.map Prod.fst = d.entries.map Prod.fst
  files : ∀ c, (d.at (setFile c)).Alike R (d'.at (setFile c))

/-- What a run is made with, the lines of what it reads in another order. -/
structure Arguments.Reordered (args args' : Arguments) : Prop where
  sets : args.sets.Alike HeaderFirst args'.sets
  predictions : Option.Rel (Folder.Alike List.Perm) args.predictions args'.predictions
  others : args' = { args with sets := args'.sets, predictions := args'.predictions }

/-! ### Files -/

section Alike

variable {R : List Str → List Str → Prop} {e e' : Entry (Read Str)} {d d' : Folder}

theorem Entry.Alike.symm (hR : ∀ ls ls', R ls ls' → R ls' ls) (h : e.Alike R e') :
    e'.Alike R e := by
  cases h with
  | same => exact .same e
  | text h => exact .text (hR _ _ h)

theorem Entry.Alike.isFile_iff (h : e.Alike R e') : e.IsFile ↔ e'.IsFile := by
  cases h with
  | same => exact Iff.rfl
  | text _ => exact Iff.rfl

/-- A text stands for a text. -/
theorem Entry.Alike.exists_text (hR : ∀ ls, R ls ls) {s : Str} (h : e.Alike R e')
    (he : e = .file (.ok s)) : ∃ s', e' = .file (.ok s') ∧ R (content s) (content s') := by
  cases h with
  | same => exact ⟨s, he, hR _⟩
  | text h =>
      cases he
      exact ⟨_, rfl, h⟩

theorem Folder.Alike.symm (hR : ∀ ls ls', R ls ls' → R ls' ls) (h : d.Alike R d') :
    d'.Alike R d :=
  ⟨h.path.symm, h.names.symm, fun c => (h.files c).symm hR⟩

theorem Folder.Alike.join (h : d.Alike R d') (name : Str) : d'.join name = d.join name := by
  unfold Folder.join
  rw [h.path]

theorem Folder.Alike.onlyKnown_iff (h : d.Alike R d') (what : Str) :
    onlyKnown d what = .ok () ↔ onlyKnown d' what = .ok () := by
  unfold onlyKnown Folder.join
  rw [h.names, h.path]

theorem HeaderFirst.refl (ls : List Str) : HeaderFirst ls ls :=
  ⟨rfl, .refl _⟩

theorem HeaderFirst.symm {ls ls' : List Str} (h : HeaderFirst ls ls') : HeaderFirst ls' ls :=
  ⟨h.1.symm, h.2.symm⟩

/-- What begins with a header is what has it first, and the others after it. -/
theorem HeaderFirst.exists_cons {first : Str} {rest ls' : List Str}
    (h : HeaderFirst (first :: rest) ls') : ∃ rest', ls' = first :: rest' ∧ rest.Perm rest' := by
  rcases h with ⟨hhead, htail⟩
  cases ls' with
  | nil => cases hhead
  | cons first' rest' =>
      cases hhead
      exact ⟨rest', rfl, htail⟩

theorem Arguments.Reordered.symm {args args' : Arguments} (h : args.Reordered args') :
    args'.Reordered args := by
  refine ⟨h.sets.symm fun _ _ => HeaderFirst.symm, ?_, ?_⟩
  · have hpredictions := h.predictions
    generalize args.predictions = p at hpredictions
    generalize args'.predictions = p' at hpredictions
    cases hpredictions with
    | none => exact .none
    | some hp => exact .some (hp.symm fun _ _ => List.Perm.symm)
  · rw [h.others]

theorem Arguments.Reordered.settings {args args' : Arguments} (h : args.Reordered args') :
    args'.settings = args.settings := by
  rw [h.others]
  rfl

end Alike

/-! ### Lines -/

section Lines

/-- A check that refuses lets through what it does not refuse. -/
theorem check_eq_ok {β : Type} {p : Prop} [Decidable p] {message : Str}
    {rest : PUnit → Except Raised β} {b : β} :
    (if p then (throw (.unreadable message) >>= rest) else rest ()) = .ok b ↔
      ¬ p ∧ rest () = .ok b := by
  by_cases hp : p
  · rw [if_pos hp]
    exact ⟨nofun, fun h => absurd hp h.1⟩
  · rw [if_neg hp]
    exact ⟨fun h => ⟨hp, h⟩, fun h => h.2⟩

theorem lines_eq_ok {path : Str} {e : Entry (Read Str)} {found : List (Str × Nat)}
    (h : lines path e = .ok found) :
    ∃ s, e = .file (.ok s) ∧ found.map Prod.fst = content s := by
  cases e with
  | absent => cases h
  | directory => cases h
  | file read =>
      cases read with
      | error why => cases h
      | ok s =>
          rcases lines_file path s with ⟨found', hfound', hcontent⟩
          rw [h] at hfound'
          cases hfound'
          exact ⟨s, rfl, hcontent⟩

variable {V α : Type} {loads : Str → Loaded V} {repr : Str → Str}

theorem mapM_parsed_iff {model : Model V α} {path : Str} {found : List (Str × Nat)}
    {as : List α} :
    (found.mapM fun l => parsed loads model l.1 path l.2) = .ok as ↔
      List.Forall₂ (ReadAs loads model) (found.map Prod.fst) as := by
  rw [Failing.mapM_eq_ok, List.forall₂_map_left_iff]
  simp only [parsed_eq_ok]

variable (loads) in
/-- A line of an answers file is this answer, to a case that is held. -/
def IsAnswer (recorded : Model V (RecordedAnswer V)) (model : Model V α) (held : List Str)
    (line : Str) (answer : Str × α) : Prop :=
  ∃ v, ReadAs loads recorded line ⟨answer.1, v⟩ ∧ answer.1 ∈ held ∧
    model.validate v = .ok answer.2

theorem readLines_eq_ok_iff {recorded : Model V (RecordedAnswer V)} {model : Model V α}
    {capability : Capability} {held : List Str} {path : Str} {found : List (Str × Nat)}
    {answers : List (Str × α)} :
    readLines loads repr recorded model capability held path found = .ok answers ↔
      List.Forall₂ (IsAnswer loads recorded model held) (found.map Prod.fst) answers := by
  induction found generalizing answers with
  | nil =>
      rw [List.map_nil, List.forall₂_nil_left_iff, readLines, Except.ok.injEq, eq_comm]
  | cons l rest ih =>
      rcases l with ⟨line, number⟩
      rw [readLines, List.map_cons]
      simp only [Failing.bind_eq_ok, parsed_eq_ok, check_eq_ok, validated_eq_ok, ih, not_not]
      constructor
      · rintro ⟨answer, hanswer, hheld, a, ha, rest, hrest, hanswers⟩
        cases hanswers
        exact .cons ⟨answer.answer, hanswer, hheld, ha⟩ hrest
      · intro h
        cases h with
        | @cons _ answer _ rest hanswer hrest =>
            rcases hanswer with ⟨v, hanswer, hheld, ha⟩
            exact ⟨⟨answer.1, v⟩, hanswer, hheld, answer.2, ha, rest, hrest, rfl⟩

end Lines

/-! ### Sets -/

section Sets

variable {V α : Type} {loads : Str → Loaded V} {repr : Str → Str} {models : SetModels V}
variable {model : Model V α} {caseId : α → Str} {capability : Capability} {path : Str}
variable {e e' : Entry (Read Str)} {golden : GoldenSet capability α} {d d' : Folder}

variable (loads) (models) (model) (caseId) (path) in
/-- A set is what these lines are read as: the first is its header, the others are its
    cases, and none of them is named twice. -/
structure SetOf (ls : List Str) (golden : GoldenSet capability α) : Prop where
  read : ∃ first rest header, ls = first :: rest ∧ ReadAs loads models.header first header ∧
    header.capability = capability ∧ golden.version = header.version ∧
    golden.description = header.description ∧ List.Forall₂ (ReadAs loads model) rest golden.cases
  nodup : (golden.cases.map caseId).Nodup
  path : golden.path = path

theorem readSet_eq_ok_iff :
    readSet loads repr models model caseId capability path e = .ok golden ↔
      ∃ s, e = .file (.ok s) ∧ SetOf loads models model caseId path (content s) golden := by
  unfold readSet
  rw [Failing.bind_eq_ok]
  constructor
  · rintro ⟨found, hfound, h⟩
    rcases lines_eq_ok hfound with ⟨s, rfl, hs⟩
    refine ⟨s, rfl, ?_⟩
    cases found with
    | nil => cases h
    | cons first rest =>
        simp only [Failing.bind_eq_ok, parsed_eq_ok, check_eq_ok, mapM_parsed_iff, not_not] at h
        rcases h with ⟨header, hheader, hcapability, cases_, hcases, _, hrepeats, hgolden⟩
        cases hgolden
        exact ⟨⟨first.1, _, header, hs.symm, hheader, hcapability, rfl, rfl, hcases⟩,
          (refuseRepeats_eq_ok_iff.mp hrepeats).1, rfl⟩
  · rintro ⟨s, rfl, ⟨first, rest, header, hls, hheader, hcapability, hversion, hdescription,
      hcases⟩, hnodup, hpath⟩
    rcases lines_file path s with ⟨found, hfound, hs⟩
    refine ⟨found, hfound, ?_⟩
    have hcontent : found.map Prod.fst = first :: rest := hs.trans hls
    rcases List.map_eq_cons_iff.mp hcontent with ⟨l, ls, rfl, rfl, rfl⟩
    simp only [Failing.bind_eq_ok, parsed_eq_ok, check_eq_ok, mapM_parsed_iff, not_not]
    refine ⟨header, hheader, hcapability, golden.cases, hcases, (),
      refuseRepeats_eq_ok_iff.mpr ⟨hnodup, fun _ _ => List.not_mem_nil⟩, ?_⟩
    rcases golden with ⟨version, description, cases_, path', hpos⟩
    cases hversion
    cases hdescription
    cases hpath
    rfl

/-- A set is read in any order of its cases. -/
theorem readSet_reordered (h : e.Alike HeaderFirst e')
    (hread : readSet loads repr models model caseId capability path e = .ok golden) :
    ∃ golden', readSet loads repr models model caseId capability path e' = .ok golden' ∧
      golden.Reordered golden' := by
  rcases readSet_eq_ok_iff.mp hread with ⟨s, hs, hset⟩
  rcases h.exists_text HeaderFirst.refl hs with ⟨s', rfl, hlines⟩
  rcases hset.read with ⟨first, rest, header, hls, hheader, hcapability, hversion, hdescription,
    hcases⟩
  rw [hls] at hlines
  rcases hlines.exists_cons with ⟨rest', hls', hrest⟩
  -- The cases that are read of the other lines are in the order of those.
  rcases List.perm_comp_forall₂ hrest.symm hcases with ⟨cases', hcases', hperm⟩
  refine ⟨⟨golden.version, golden.description, cases', golden.path, golden.version_pos⟩,
    readSet_eq_ok_iff.mpr ⟨s', rfl, ?_, ?_, hset.path⟩, ⟨rfl, hperm.symm⟩⟩
  · exact ⟨first, rest', header, hls', hheader, hcapability, hversion, hdescription, hcases'⟩
  · exact (hperm.map caseId).nodup_iff.mpr hset.nodup

theorem readSets_eq_ok_iff {sets : Sets} :
    readSets loads repr models d = .ok sets ↔
      onlyKnown d (text "a set") = .ok () ∧ (∀ c, (d.at (setFile c)).IsFile) ∧
        readSet loads repr models models.extraction ExtractionCase.caseId .extraction
          (d.join (setFile .extraction)) (d.at (setFile .extraction)) = .ok sets.extraction ∧
        readSet loads repr models models.retrieval RetrievalCase.caseId .retrieval
          (d.join (setFile .retrieval)) (d.at (setFile .retrieval)) = .ok sets.retrieval ∧
        readSet loads repr models models.classification ClassificationCase.caseId .classification
          (d.join (setFile .classification)) (d.at (setFile .classification)) =
          .ok sets.classification := by
  unfold readSets
  simp only [Failing.bind_eq_ok, check_eq_ok, missing_eq_nil_iff, not_not]
  constructor
  · rintro ⟨_, hknown, hfiles, extraction, he, retrieval, hr, classification, hc, hsets⟩
    cases hsets
    exact ⟨hknown, hfiles, he, hr, hc⟩
  · rintro ⟨hknown, hfiles, he, hr, hc⟩
    exact ⟨(), hknown, hfiles, _, he, _, hr, _, hc, rfl⟩

/-- Sets are read in any order of their cases. -/
theorem readSets_reordered {sets : Sets} (h : d.Alike HeaderFirst d')
    (hread : readSets loads repr models d = .ok sets) :
    ∃ sets', readSets loads repr models d' = .ok sets' ∧ sets.Reordered sets' := by
  rcases readSets_eq_ok_iff.mp hread with ⟨hknown, hfiles, he, hr, hc⟩
  rcases readSet_reordered (h.files .extraction) he with ⟨extraction, he', hext⟩
  rcases readSet_reordered (h.files .retrieval) hr with ⟨retrieval, hr', hret⟩
  rcases readSet_reordered (h.files .classification) hc with ⟨classification, hc', hcla⟩
  refine ⟨⟨extraction, retrieval, classification⟩, readSets_eq_ok_iff.mpr
    ⟨(h.onlyKnown_iff _).mp hknown, fun c => (h.files c).isFile_iff.mp (hfiles c), ?_⟩,
    ⟨hext, hret, hcla⟩⟩
  rw [h.join, h.join, h.join]
  exact ⟨he', hr', hc'⟩

end Sets

/-! ### Answers -/

section Answers

variable {V α : Type} {loads : Str → Loaded V} {repr : Str → Str}
variable {recorded : Model V (RecordedAnswer V)} {model : Model V α} {capability : Capability}
variable {held held' : List Str} {path : Str} {e e' : Entry (Read Str)} {d d' : Folder}
variable {answers : Option (List (Str × α))}

variable (loads) (recorded) (model) (held) in
/-- Answers are what these lines are read as, none of them to a case twice. -/
def AnswersOf (ls : List Str) (answers : List (Str × α)) : Prop :=
  List.Forall₂ (IsAnswer loads recorded model held) ls answers ∧ (answers.map Prod.fst).Nodup

theorem readOne_eq_ok_iff :
    readOne loads repr recorded model capability held path e = .ok answers ↔
      (held = [] ∧ ¬ e.IsFile ∧ answers = none) ∨
        (held ≠ [] ∧ ∃ s found, e = .file (.ok s) ∧ answers = some found ∧
          AnswersOf loads recorded model held (content s) found) := by
  unfold readOne
  by_cases hheld : held = []
  · simp only [hheld, if_true, check_eq_ok, true_and, ne_eq, not_true_eq_false, false_and,
      or_false]
    exact and_congr_right fun _ => ⟨fun h => (Except.ok.inj h).symm, fun h => congrArg _ h.symm⟩
  · simp only [hheld, if_false, check_eq_ok, Failing.bind_eq_ok, readLines_eq_ok_iff, not_not,
      false_and, false_or, ne_eq, not_false_eq_true, true_and]
    constructor
    · rintro ⟨_, found, hfound, as, has, _, hrepeats, hanswers⟩
      rcases lines_eq_ok hfound with ⟨s, rfl, hs⟩
      cases hanswers
      exact ⟨s, as, rfl, rfl, hs ▸ has, (refuseRepeats_eq_ok_iff.mp hrepeats).1⟩
    · rintro ⟨s, as, rfl, rfl, has, hnodup⟩
      rcases lines_file path s with ⟨found, hfound, hs⟩
      have hlines : found.map Prod.fst = content s := hs
      exact ⟨trivial, found, hfound, as, hlines ▸ has, (),
        refuseRepeats_eq_ok_iff.mpr ⟨hnodup, fun _ _ => List.not_mem_nil⟩, rfl⟩

/-- Answers are read in any order, whatever the order of the cases they are to. -/
theorem readOne_reordered (h : e.Alike List.Perm e') (hheld : held.Perm held')
    (hread : readOne loads repr recorded model capability held path e = .ok answers) :
    ∃ answers', readOne loads repr recorded model capability held' path e' = .ok answers' ∧
      Option.Rel AnswersReordered answers answers' := by
  rcases readOne_eq_ok_iff.mp hread with
    ⟨rfl, hfile, rfl⟩ | ⟨hne, s, found, hs, rfl, has, hnodup⟩
  · exact ⟨none, readOne_eq_ok_iff.mpr
      (Or.inl ⟨List.nil_perm.mp hheld, h.isFile_iff.not.mp hfile, rfl⟩), .none⟩
  · rcases h.exists_text List.Perm.refl hs with ⟨s', rfl, hlines⟩
    rcases List.perm_comp_forall₂ hlines.symm has with ⟨found', has', hperm⟩
    have hne' : held' ≠ [] := fun hnil => hne (List.perm_nil.mp (hnil ▸ hheld))
    have hsame : IsAnswer loads recorded model held = IsAnswer loads recorded model held' := by
      funext line answer
      unfold IsAnswer
      simp only [hheld.mem_iff]
    exact ⟨some found', readOne_eq_ok_iff.mpr (Or.inr ⟨hne', s', found', rfl, rfl, hsame ▸ has',
      (hperm.map Prod.fst).nodup_iff.mpr hnodup⟩), .some ⟨hperm.symm, hnodup⟩⟩

theorem readAnswers_eq_ok_iff {models : AnswerModels V} {sets : Sets} {found : Answers} :
    readAnswers loads repr models d sets = .ok found ↔
      onlyKnown d (text "an answers file") = .ok () ∧
        readOne loads repr models.recorded models.extraction .extraction
          (sets.extraction.cases.map ExtractionCase.caseId) (d.join (setFile .extraction))
          (d.at (setFile .extraction)) = .ok found.extraction ∧
        readOne loads repr models.recorded models.retrieval .retrieval
          (sets.retrieval.cases.map RetrievalCase.caseId) (d.join (setFile .retrieval))
          (d.at (setFile .retrieval)) = .ok found.retrieval ∧
        readOne loads repr models.recorded models.classification .classification
          (sets.classification.cases.map ClassificationCase.caseId)
          (d.join (setFile .classification)) (d.at (setFile .classification)) =
          .ok found.classification := by
  unfold readAnswers
  simp only [Failing.bind_eq_ok]
  constructor
  · rintro ⟨_, hknown, extraction, he, retrieval, hr, classification, hc, hfound⟩
    cases hfound
    exact ⟨hknown, he, hr, hc⟩
  · rintro ⟨hknown, he, hr, hc⟩
    exact ⟨(), hknown, _, he, _, hr, _, hc, rfl⟩

/-- Recorded answers are read in any order of theirs and of the cases. -/
theorem readAnswers_reordered {models : AnswerModels V} {sets sets' : Sets} {found : Answers}
    (h : d.Alike List.Perm d') (hsets : sets.Reordered sets')
    (hread : readAnswers loads repr models d sets = .ok found) :
    ∃ found', readAnswers loads repr models d' sets' = .ok found' ∧ found.Reordered found' := by
  rcases readAnswers_eq_ok_iff.mp hread with ⟨hknown, he, hr, hc⟩
  rcases readOne_reordered (h.files .extraction) (hsets.extraction.cases.map _) he with
    ⟨extraction, he', hext⟩
  rcases readOne_reordered (h.files .retrieval) (hsets.retrieval.cases.map _) hr with
    ⟨retrieval, hr', hret⟩
  rcases readOne_reordered (h.files .classification) (hsets.classification.cases.map _) hc with
    ⟨classification, hc', hcla⟩
  refine ⟨⟨extraction, retrieval, classification⟩, readAnswers_eq_ok_iff.mpr
    ⟨(h.onlyKnown_iff _).mp hknown, ?_⟩, ⟨hext, hret, hcla⟩⟩
  rw [h.join, h.join, h.join]
  exact ⟨he', hr', hc'⟩

end Answers

/-! ### A run -/

section Run

variable {V : Type} {F : Formats V} {A : Arithmetic} {compare : Scalar → Scalar → Bool}
variable {args args' : Arguments} {file : BaselineFile} {sets sets' : Sets}

theorem answersOf_reordered {answers : Answers} (h : args.Reordered args')
    (hsets : sets.Reordered sets') (hread : answersOf F args sets = .ok answers) :
    ∃ answers', answersOf F args' sets' = .ok answers' ∧ answers.Reordered answers' := by
  have hpredictions := h.predictions
  unfold answersOf at hread ⊢
  generalize args.predictions = p at hpredictions hread
  generalize args'.predictions = p' at hpredictions
  cases hpredictions with
  | none =>
      cases hread
      exact ⟨answersFromBuild, rfl, .none, .none, .none⟩
  | some hp => exact readAnswers_reordered hp hsets hread

/-- What is recorded of a set is its version and its size. -/
theorem recorded_reordered (hsets : sets.Reordered sets') (tag : Str) (ms : List Measurement)
    (settings : Settings) :
    recorded A tag sets' ms settings = recorded A tag sets ms settings := by
  unfold recorded
  simp only [hsets.version, hsets.held]

theorem baselineOf_reordered (h : args.Reordered args') (hsets : sets.Reordered sets')
    (tag : Str) : baselineOf F A args' tag sets' file = baselineOf F A args tag sets file := by
  rw [h.others]
  unfold baselineOf unrecorded destination
  simp only [recorded_reordered hsets]
  rfl

/-- A run that is judged is judged so in any order of the lines it reads. -/
theorem outcomeOf_reordered {j : Judged} (h : args.Reordered args')
    (hj : outcomeOf F exact compare args file = .ok j) :
    ∃ sets', outcomeOf F exact compare args' file = .ok { j with sets := sets' } ∧
      j.sets.Reordered sets' := by
  rcases outcomeOf_eq_ok hj with
    ⟨answers, hsets, hrules, hanswers, hms, htag, hbaseline, houtcome⟩
  rcases readSets_reordered h.sets hsets with ⟨sets', hsets', hreordered⟩
  rcases answersOf_reordered h hreordered hanswers with ⟨answers', hanswers', hsame⟩
  have hms' := (measure_reordered args.topK hreordered hsame).trans hms
  refine ⟨sets', ?_, hreordered⟩
  rw [← baselineOf_reordered h hreordered] at hbaseline
  -- What else the run is made with is as it was.
  have hrules' : document (text "the declared rules") args'.rulesPath args'.rules =
      .ok j.rules := by
    rw [h.others]
    exact hrules
  have hmeasured : measure exact compare sets' answers' args'.topK = .ok j.measurements := by
    rw [h.others]
    exact hms'
  have htag' : tagOf args' = .ok j.tag := by
    rw [h.others]
    exact htag
  unfold outcomeOf
  simp only [Failing.bind_eq_ok]
  refine ⟨sets', hsets', j.rules, hrules', answers', hanswers', j.measurements, hmeasured, j.tag,
    htag', j.baseline, hbaseline, ?_⟩
  rw [houtcome, h.settings]
  rfl

theorem run_of_reordered_of {r : Nat × BaselineFile} (h : args.Reordered args')
    (hrun : run F exact compare args file = .ok r) : run F exact compare args' file = .ok r := by
  unfold run at hrun ⊢
  rcases Failing.bind_eq_ok.mp hrun with ⟨j, hj, hr⟩
  rcases outcomeOf_reordered h hj with ⟨sets', hj', hsets⟩
  have hrecord : args'.record = args.record := by rw [h.others]
  refine Failing.bind_eq_ok.mpr ⟨_, hj', ?_⟩
  simp only [hrecord, h.settings, recorded_reordered hsets]
  exact hr

theorem exists_judged_of_reordered {ms : List Measurement} {o : Outcome}
    (h : args.Reordered args')
    (hj : ∃ j, outcomeOf F exact compare args file = .ok j ∧ j.measurements = ms ∧ j.outcome = o) :
    ∃ j, outcomeOf F exact compare args' file = .ok j ∧ j.measurements = ms ∧ j.outcome = o := by
  rcases hj with ⟨j, hj, hms, ho⟩
  rcases outcomeOf_reordered h hj with ⟨sets', hj', _⟩
  exact ⟨_, hj', hms, ho⟩

variable (F) (compare) in
/-- A run comes to the same status and leaves the same baseline, in whatever order the
    cases and the answers stand in their files, or comes to neither; and it measures
    the same and is judged the same, or comes to neither of that. -/
theorem run_of_reordered (h : args.Reordered args') (file : BaselineFile) :
    (∀ r : Nat × BaselineFile,
      run F exact compare args file = .ok r ↔ run F exact compare args' file = .ok r) ∧
    ∀ ms o,
      (∃ j, outcomeOf F exact compare args file = .ok j ∧ j.measurements = ms ∧ j.outcome = o) ↔
        ∃ j, outcomeOf F exact compare args' file = .ok j ∧ j.measurements = ms ∧ j.outcome = o :=
  ⟨fun _ => ⟨run_of_reordered_of h, run_of_reordered_of h.symm⟩,
    fun _ _ => ⟨exists_judged_of_reordered h, exists_judged_of_reordered h.symm⟩⟩

end Run

section Example

/-- The sample's sets, with the second question first, a blank line, and one more. -/
def backwardsSets : Folder where
  path := text "golden"
  entries :=
    [(setFile .extraction, .file (.ok (headerLine .extraction))),
      (setFile .retrieval, .file (.ok (headerLine .retrieval ++ text "\n" ++
        questionLine (text "b") ++ text " \r\n  " ++ questionLine (text "a")))),
      (setFile .classification, .file (.ok (headerLine .classification)))]

/-- The sample's run, with the second answer first. -/
def backwardsRun : Arguments :=
  { sampleRun true true with
    sets := backwardsSets
    predictions := some ⟨text "predictions", [(setFile .retrieval,
      .file (.ok (answerLine (text "b") true ++ answerLine (text "a") true)))]⟩ }

theorem reordered_backwards : (sampleRun true true).Reordered backwardsRun where
  sets :=
    { path := rfl
      names := rfl
      files := fun c => by
        cases c with
        | extraction => exact .same _
        | retrieval => exact .text ⟨by decide +kernel, by decide +kernel⟩
        | classification => exact .same _ }
  predictions := .some
    { path := rfl
      names := rfl
      files := fun c => by
        cases c with
        | extraction => exact .same _
        | retrieval => exact .text (by decide +kernel)
        | classification => exact .same _ }
  others := rfl

/-- It passes as the sample's run does, and measures the same. -/
theorem run_of_reordered_backwards :
    ∃ left j j', run sampleFormats exact sampleCompare backwardsRun .absent = .ok (0, left) ∧
      outcomeOf sampleFormats exact sampleCompare (sampleRun true true) .absent = .ok j ∧
      outcomeOf sampleFormats exact sampleCompare backwardsRun .absent = .ok j' ∧
      j'.measurements = j.measurements := by
  have hpasses := passes_first
  unfold main at hpasses
  split at hpasses
  · rename_i status left hrun
    cases hpasses
    have hsame := run_of_reordered sampleFormats sampleCompare reordered_backwards .absent
    rcases Failing.bind_eq_ok.mp hrun with ⟨j, hj, _⟩
    rcases (hsame.2 j.measurements j.outcome).mp ⟨j, hj, rfl, rfl⟩ with ⟨j', hj', hms, _⟩
    exact ⟨left, j, j', (hsame.1 (0, left)).mp hrun, hj, hj', hms⟩
  · cases hpasses
  · cases hpasses

end Example

end Evaluation

end ClaimTriage
