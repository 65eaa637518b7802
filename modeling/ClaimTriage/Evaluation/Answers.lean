import ClaimTriage.Evaluation.Sets
import ClaimTriage.Theory.Rounding

/-!
# Answers

What answered a set's cases: the build's own output, or answers recorded
earlier, one JSON line per case. A capability nothing answered is told from one
whose every case was answered wrong.

A fraud score is a number from zero to one. JSON as it is parsed here also has one
that is not a number, which the bounds of the field refuse like any other that is
not between them.

## Main definitions

* `ExtractionAnswer`, `RetrievalAnswer`, `ClassificationAnswer`: One answer.
* `RecordedAnswer`: One line of a recorded answers file.
* `Answers`: What answered a run's cases.
* `answersFromBuild`: The build's own answers.
* `readAnswers`: How recorded answers are read.
-/

namespace ClaimTriage

namespace Evaluation

open Theory Text Numeral

/-- What an extraction produced for one document. -/
structure ExtractionAnswer where
  fields : Fields

/-- What a retrieval returned for one case, best first, and what it cited. -/
structure RetrievalAnswer where
  retrieved : List ClauseRef
  cited : List ClauseRef

/-- What a classification and routing concluded about one claim. -/
structure ClassificationAnswer where
  fraudScore : ℚ
  fraudRisk : Str
  severity : Str
  queue : Str
  bounded : 0 ≤ fraudScore ∧ fraudScore ≤ 1

/-- One line of a recorded answers file: the case it answers, and the answer. -/
structure RecordedAnswer (V : Type) where
  caseId : Str
  answer : V

/-- What answered a run's cases, by case, or nothing where nothing was asked. -/
structure Answers where
  extraction : Option (List (Str × ExtractionAnswer))
  retrieval : Option (List (Str × RetrievalAnswer))
  classification : Option (List (Str × ClassificationAnswer))

/-- The build's answers. No capability has a stage in it yet, so it answers
    none. -/
def answersFromBuild : Answers where
  extraction := none
  retrieval := none
  classification := none

/-- The models a recorded answers file's lines are read as. -/
structure AnswerModels (V : Type) where
  recorded : Model V (RecordedAnswer V)
  extraction : Model V ExtractionAnswer
  retrieval : Model V RetrievalAnswer
  classification : Model V ClassificationAnswer

section Read

variable {V α : Type} (loads : Str → Loaded V) (repr : Str → Str)

/-- The answers of a file's lines, each about a case the set holds. -/
def readLines (recorded : Model V (RecordedAnswer V)) (model : Model V α) (capability : Capability)
    (held : List Str) (path : Str) : List (Str × Nat) → Except Raised (List (Str × α))
  | [] => .ok []
  | (line, number) :: rest => do
      let answer ← parsed loads recorded line path number
      if answer.caseId ∉ held then
        throw (.unreadable (place path number ++ text " answers " ++ repr answer.caseId ++
          text ", which " ++ capability.value ++ text " does not hold"))
      let a ← validated model answer.answer (place path number)
      return (answer.caseId, a) :: (← readLines recorded model capability held path rest)

/-- One capability's answers, or none when the sets hold no case for it to have
    answered. -/
def readOne (recorded : Model V (RecordedAnswer V)) (model : Model V α) (capability : Capability)
    (held : List Str) (path : Str) (e : Entry (Read Str)) :
    Except Raised (Option (List (Str × α))) := do
  if held = [] then
    if e.IsFile then
      throw (.unreadable (path ++ text " answers " ++ capability.value ++
        text ", which the sets hold no case for"))
    return none
  if ¬ e.IsFile then
    throw (.unreadable (text "no answers at " ++ path ++ text ": " ++ capability.value ++
      text " holds " ++ decimal held.length ++ text " cases"))
  let found ← lines path e
  let answers ← readLines loads repr recorded model capability held path found
  refuseRepeats repr path [] (answers.map Prod.fst)
  return some answers

/-- Read a directory as the recorded answers for these sets, one file per
    capability. -/
def readAnswers (models : AnswerModels V) (d : Folder) (sets : Sets) : Except Raised Answers := do
  onlyKnown d (text "an answers file")
  let extraction ← readOne loads repr models.recorded models.extraction .extraction
    (sets.extraction.cases.map ExtractionCase.caseId) (d.join (setFile .extraction))
    (d.at (setFile .extraction))
  let retrieval ← readOne loads repr models.recorded models.retrieval .retrieval
    (sets.retrieval.cases.map RetrievalCase.caseId) (d.join (setFile .retrieval))
    (d.at (setFile .retrieval))
  let classification ← readOne loads repr models.recorded models.classification .classification
    (sets.classification.cases.map ClassificationCase.caseId) (d.join (setFile .classification))
    (d.at (setFile .classification))
  return { extraction, retrieval, classification }

end Read

end Evaluation

end ClaimTriage
