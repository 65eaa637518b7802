import ClaimTriage.Model.Port
import ClaimTriage.Theory.Except
import ClaimTriage.Theory.Index
import Mathlib.Data.List.Dedup

/-!
# The Replay Adapter

The model, answered from fixtures committed beside it. A fixture is one recorded
call and the answer it got, and is read from what its file holds and not from what
the file is called. The directory is read once, and a set in which two files
record one call is refused.

## Main definitions

* `ReplayFixture`: One recorded call and its answer.
* `Directory`: What stands where the fixtures are looked for.
* `fixture`, `read`: One file, and all of them by the calls they answer.
* `ReplayModel`, `ReplayModel.init`: The model, and how it is built.
* `ReplayModel.answer`: How it answers a call.
-/

namespace ClaimTriage

namespace Replay

open Theory Text Value Port

/-- What a fixture is called. Everything else in the directory is not one. -/
def fixtureSuffix : Str :=
  text ".json"

/-- One recorded call, and the answer a model gave it. A model's strings hold no
    surrogates. -/
structure ReplayFixture where
  task : Str
  content : Str
  answerAs : Str
  answer : List (Str × Value)
  encodable : Identity.Encodable ⟨task, content, answerAs⟩

/-- The call it was recorded for. -/
def ReplayFixture.identity (fixture : ReplayFixture) : Identity :=
  ⟨fixture.task, fixture.content, fixture.answerAs⟩

/-- One fixture as it was read, and the file it came from. -/
structure Recorded where
  fixture : ReplayFixture
  path : Str

/-- What stands at a path: no directory, or one and what is listed in it, each name
    with the text of its file or with what reading it raises. -/
structure Directory where
  path : Str
  entries : Option (List (Str × Except Raised Str))
  nodup : ∀ found ∈ entries, (found.map Prod.fst).Nodup

/-- The path of a name in a directory. -/
def Directory.join (directory : Directory) (name : Str) : Str :=
  if directory.path = text "." then name
  else if directory.path.getLast? = some 0x2F then directory.path ++ name
  else directory.path ++ text "/" ++ name

/-- The entries that are named like fixtures, in order of their names. -/
def named (found : List (Str × Except Raised Str)) : List (Str × Except Raised Str) :=
  Ordered.sortBy Prod.fst (found.filter fun e => fixtureSuffix <:+ e.1)

/-- The model, answered from committed fixtures instead of an endpoint. -/
structure ReplayModel where
  directory : Str
  recorded : List (Str × Recorded)

section Read

variable (validateJson : Str → Except Str ReplayFixture)

/-- One file as a fixture, or the failure that says which file is not one. -/
def fixture (path : Str) (file : Except Raised Str) : Except Raised ReplayFixture := do
  match validateJson (← file) with
  | .ok fixture => return fixture
  | .error malformed => throw (.unusableFixture (path ++ text " is not a fixture: " ++ malformed))

/-- One file under the call it answers. -/
def recordedAt (directory : Directory) (e : Str × Except Raised Str) :
    Except Raised (Str × Recorded) := do
  let path := directory.join e.1
  let fixture ← fixture validateJson path e.2
  let fingerprint ← callFingerprint fixture.task fixture.content fixture.answerAs
  return (fingerprint, ⟨fixture, path⟩)

/-- What a file is refused with when another has recorded its call. -/
def sameCall (directory : Directory) (e : Str × Except Raised Str) (other : Recorded) : Raised :=
  .unusableFixture (directory.join e.1 ++ text " and " ++ other.path ++
    text " record the same call")

/-- Every fixture in one directory, by the call it answers: an unreadable set is
    refused. -/
def read (directory : Directory) : Except Raised (List (Str × Recorded)) :=
  match directory.entries with
  | none => .error (.lookupError (text "no replay fixtures at " ++ directory.path))
  | some found =>
      Index.collect (recordedAt validateJson directory) (sameCall directory) [] (named found)

/-- Read a fixture set once: every answer after this is what was read. -/
def ReplayModel.init (directory : Directory) : Except Raised ReplayModel := do
  return ⟨directory.path, ← read validateJson directory⟩

end Read

section Answer

variable {α : Type} (repr : Str → Str)

/-- What a fixture set does answer, so a call it does not answer can be placed. -/
def ReplayModel.tasks (model : ReplayModel) : Str :=
  let tasks := Ordered.sortBy id (model.recorded.map fun e => e.2.fixture.task).dedup
  if tasks = [] then text "nothing yet" else List.intercalate (text ", ") (tasks.map repr)

/-- A recorded answer as the shape a call asks for. -/
def Recorded.answer (recorded : Recorded) (call : ModelCall α) : Except Raised α :=
  match call.answerAs.modelValidate recorded.fixture.answer with
  | .ok answer => .ok answer
  | .error (.validationError doesNotFit) =>
      .error (.unusableFixture (recorded.path ++ text " does not fit " ++ call.schema ++
        text ": " ++ doesNotFit))
  | .error .other => .error .other

/-- Answer one call with the fixture recorded for it, as the shape the call asks
    for. -/
def ReplayModel.answer (model : ReplayModel) (call : ModelCall α) : Except Raised α := do
  match model.recorded.lookup (← call.fingerprint) with
  | none =>
      throw (.noFixture (text "no fixture answers " ++ repr call.task ++ text ": " ++
        model.directory ++ text " records " ++ Numeral.decimal model.recorded.length ++
        text " calls, for " ++ model.tasks repr))
  | some recorded => recorded.answer call

end Answer

end Replay

end ClaimTriage
