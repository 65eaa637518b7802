import ClaimTriage.Evaluation.Material
import ClaimTriage.Theory.Calendar

/-!
# The Golden Sets

What each capability is scored against: a file per capability, a header first
and one case on every line after it. A case names no field twice, states at
least one, and every name it states is one a metric can carry; a value that is
not so is not a case here.

## Main definitions

* `Scalar`: One extracted value.
* `Fields`: Values by field name.
* `ExtractionCase`, `RetrievalCase`, `ClassificationCase`: The cases of a set.
* `GoldenSet`: One capability's set.
* `Sets`: The three sets one run scores.
* `SetModels`: The models a set's lines are read as.
* `readSet`, `readSets`: How the sets are read.
-/

namespace ClaimTriage

namespace Evaluation

open Theory Text

/-- One extracted value. A fraction is the text it is written as. -/
inductive Scalar where
  | str (s : Str)
  | int (n : Int)
  | float (written : Str)
  | bool (b : Bool)
  | none
  deriving DecidableEq

/-- A lower case letter. -/
def IsLower (c : CodePoint) : Prop :=
  0x61 ≤ c.val ∧ c.val ≤ 0x7A

instance (c : CodePoint) : Decidable (IsLower c) :=
  inferInstanceAs (Decidable (_ ∧ _))

/-- A character of a field's name after its first. -/
def IsNamed (c : CodePoint) : Prop :=
  IsLower c ∨ Numeral.IsDigit c ∨ c = 0x5F

instance (c : CodePoint) : Decidable (IsNamed c) :=
  inferInstanceAs (Decidable (_ ∨ _))

/-- A letter, and letters, digits and underscores after it. -/
def IsFieldName : Str → Prop
  | [] => False
  | c :: rest => IsLower c ∧ ∀ d ∈ rest, IsNamed d

instance (s : Str) : Decidable (IsFieldName s) :=
  match s with
  | [] => isFalse id
  | _ :: rest => @instDecidableAnd _ _ _ (List.decidableBAll IsNamed rest)

/-- What the pattern for a field's name matches: the end it asks for is also
    found before a last newline. -/
def MatchesFieldName (s : Str) : Prop :=
  IsFieldName s ∨ s.getLast? = some 0x0A ∧ IsFieldName s.dropLast

instance (s : Str) : Decidable (MatchesFieldName s) :=
  inferInstanceAs (Decidable (_ ∨ _))

/-- Values by field name, each name one the pattern matches. -/
@[ext]
structure Fields where
  entries : List (Str × Scalar)
  nodup : (entries.map Prod.fst).Nodup
  named : ∀ name ∈ entries.map Prod.fst, MatchesFieldName name

/-- One clause, as a case expects it or an answer returns it. -/
structure ClauseRef where
  clauseId : Str
  edition : Str
  page : Option Nat
  page_pos : ∀ p ∈ page, 1 ≤ p
  deriving DecidableEq

/-- A clause may be on no page. -/
theorem page_pos_none : ∀ p ∈ (none : Option Nat), 1 ≤ p :=
  fun p h => absurd h (Option.not_mem_none p)

/-- What makes a clause this clause: its identifier under its edition, not its
    page. -/
def ClauseRef.identity (c : ClauseRef) : Str × Str :=
  (c.clauseId, c.edition)

/-- One document, and the fields a correct extraction of it holds. -/
structure ExtractionCase where
  caseId : Str
  document : Str
  fields : Fields
  fields_ne_nil : fields.entries ≠ []

/-- One question, and the clauses that answer it. -/
structure RetrievalCase where
  caseId : Str
  question : Str
  incidentDate : Calendar.Date
  productFamily : Str
  expected : List ClauseRef
  expected_ne_nil : expected ≠ []

/-- One claim, and what a correct classification and routing of it concludes. -/
structure ClassificationCase where
  caseId : Str
  claim : List (Str × Scalar)
  fraudPositive : Bool
  fraudRisk : Str
  severity : Str
  queue : Str

/-- What a set's first line states. -/
structure SetHeader where
  capability : Capability
  version : Nat
  description : Str
  version_pos : 1 ≤ version

/-- One capability's set: its header, its cases, and the file they were read
    from. Which capability's it is, its file says and its header repeats. -/
structure GoldenSet (capability : Capability) (α : Type) where
  version : Nat
  description : Str
  cases : List α
  path : Str
  version_pos : 1 ≤ version

/-- The three sets one run scores. -/
structure Sets where
  extraction : GoldenSet .extraction ExtractionCase
  retrieval : GoldenSet .retrieval RetrievalCase
  classification : GoldenSet .classification ClassificationCase

/-- A set's version, by its capability. -/
def Sets.version (s : Sets) : Capability → Nat
  | .extraction => s.extraction.version
  | .retrieval => s.retrieval.version
  | .classification => s.classification.version

theorem Sets.version_pos (s : Sets) (c : Capability) : 1 ≤ s.version c := by
  cases c
  · exact s.extraction.version_pos
  · exact s.retrieval.version_pos
  · exact s.classification.version_pos

/-- How many cases a set holds, by its capability. -/
def Sets.held (s : Sets) : Capability → Nat
  | .extraction => s.extraction.cases.length
  | .retrieval => s.retrieval.cases.length
  | .classification => s.classification.cases.length

/-- The models a set's lines are read as. -/
structure SetModels (V : Type) where
  header : Model V SetHeader
  extraction : Model V ExtractionCase
  retrieval : Model V RetrievalCase
  classification : Model V ClassificationCase

section Read

variable {V α : Type} (loads : Str → Loaded V) (repr : Str → Str)

/-- Read one set: its header first, then one case per line, each validated as
    its own shape. -/
def readSet (models : SetModels V) (model : Model V α) (caseId : α → Str) (capability : Capability)
    (path : Str) (e : Entry (Read Str)) : Except Raised (GoldenSet capability α) := do
  match ← lines path e with
  | [] =>
      throw (.unreadable (path ++ text " is empty: a set states its capability and version first"))
  | (first, number) :: rest =>
      let header ← parsed loads models.header first path number
      if header.capability ≠ capability then
        throw (.unreadable (place path number ++ text " declares " ++ header.capability.value ++
          text "; " ++ setFile capability ++ text " is " ++ capability.value ++ text "'s set"))
      let cases ← rest.mapM fun l => parsed loads model l.1 path l.2
      refuseRepeats repr path [] (cases.map caseId)
      return {
        version := header.version
        description := header.description
        cases := cases
        path := path
        version_pos := header.version_pos }

/-- Read one directory as the three sets, refusing anything in it that is not
    one of them. -/
def readSets (models : SetModels V) (d : Folder) : Except Raised Sets := do
  onlyKnown d (text "a set")
  let missing := (capabilities.map setFile).filter fun name => ¬ (d.at name).IsFile
  if missing ≠ [] then
    throw (.unreadable (d.path ++ text " holds no " ++ joined (text " and no ") missing))
  let extraction ← readSet loads repr models models.extraction ExtractionCase.caseId .extraction
    (d.join (setFile .extraction)) (d.at (setFile .extraction))
  let retrieval ← readSet loads repr models models.retrieval RetrievalCase.caseId .retrieval
    (d.join (setFile .retrieval)) (d.at (setFile .retrieval))
  let classification ← readSet loads repr models models.classification ClassificationCase.caseId
    .classification (d.join (setFile .classification)) (d.at (setFile .classification))
  return { extraction, retrieval, classification }

end Read

end Evaluation

end ClaimTriage
