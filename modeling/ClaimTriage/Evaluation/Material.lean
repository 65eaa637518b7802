import ClaimTriage.Theory.Lines
import ClaimTriage.Theory.Numeral
import Mathlib.Data.List.Sort

/-!
# The Harness's Material

What an evaluation run reads off disk, and how it refuses: a file that cannot
be read, a line that is not what it claims to be, and a directory with a file
in it that is none of the three are one kind of failure, and a run is ended by
it with a status of its own.

What else may end a run is kept apart from that (`Raised`), since whether
there is anything else is a question about the readers. Parsing a line of JSON
can fail in three ways, of which the reader catches one.

How a line is parsed and how a parsed value becomes a model are the libraries'
business, so they are parameters here: `Loaded` says what parsing may come to,
and a `Model` either takes a value or says what does not fit.

## Main definitions

* `Capability`: What is scored.
* `Raised`: What may end a run before it has answered.
* `Entry`: What stands under a name of a directory.
* `Read`: What reading a file gives.
* `Loaded`: What parsing a line may come to.
* `Model`: A model's name, and which values it takes.
* `lines`: The lines of a file that are not blank, and their numbers.
* `parsed`: A line as a model.
* `document`: A whole file as a model.
* `onlyKnown`: Nothing but the capabilities' files is in a directory.
* `refuseRepeats`: No case is named twice.
-/

namespace ClaimTriage

namespace Evaluation

open Theory Text Numeral

/-- What is scored: each is a golden set, a file of answers, and a row of the
    metric table. -/
inductive Capability where
  | extraction
  | retrieval
  | classification
  deriving DecidableEq

/-- The name a capability goes by. -/
def Capability.value : Capability → Str
  | extraction => text "extraction"
  | retrieval => text "retrieval"
  | classification => text "classification"

/-- Every capability there is, in the order they are scored. -/
def capabilities : List Capability :=
  [.extraction, .retrieval, .classification]

/-- The file a capability's set is committed as. -/
def setFile (c : Capability) : Str :=
  c.value ++ text ".jsonl"

/-- What may end a run before it has answered. Only the first is refused by
    name; `endless` is no failure at all but a loop that never ends. -/
inductive Raised where
  | unreadable (message : Str)
  | valueError
  | recursionError
  | zeroDivision
  | validationError
  | osError
  | endless
  deriving DecidableEq

/-- What stands under a name: a file and what it holds, nothing, or no file. -/
inductive Entry (γ : Type) where
  | file (content : γ)
  | absent
  | directory

/-- There is a file under the name. -/
def Entry.IsFile {γ : Type} : Entry γ → Prop
  | file _ => True
  | absent | directory => False

instance {γ : Type} (e : Entry γ) : Decidable e.IsFile :=
  match e with
  | .file _ => isTrue trivial
  | .absent | .directory => isFalse id

/-- What reading a file gives: what it holds, or why it cannot be read as text at
    all. -/
abbrev Read (γ : Type) := Except Str γ

/-- A directory: its path, and what stands in it. -/
structure Folder where
  path : Str
  entries : List (Str × Entry (Read Str))

/-- The path of a name in a directory. -/
def Folder.join (d : Folder) (name : Str) : Str :=
  d.path ++ text "/" ++ name

/-- What stands under a name in a directory. -/
def Folder.at (d : Folder) (name : Str) : Entry (Read Str) :=
  (d.entries.lookup name).getD .absent

/-- A whole file, or the refusal naming why it cannot be read as text at all. -/
def readText {γ : Type} (path : Str) : Entry (Read γ) → Except Raised γ
  | .file (.ok content) => .ok content
  | .file (.error why) => .error (.unreadable (path ++ text " cannot be read: " ++ why))
  | .absent =>
      .error (.unreadable (path ++ text " cannot be read: [Errno 2] No such file or directory: '" ++
        path ++ text "'"))
  | .directory =>
      .error (.unreadable (path ++ text " cannot be read: [Errno 21] Is a directory: '" ++ path ++
        text "'"))

/-- Lines with the number each sits at, counted from one. -/
def numbered (n : Nat) : List Str → List (Str × Nat)
  | [] => []
  | line :: rest => (line, n) :: numbered (n + 1) rest

/-- Every line of a file that is not blank, without the blanks around it, with
    the number it sits at. -/
def lines (path : Str) (e : Entry (Read Str)) : Except Raised (List (Str × Nat)) := do
  let content ← readText path e
  return ((numbered 1 (splitLines content)).filter fun l => strip l.1 ≠ []).map fun l =>
    (strip l.1, l.2)

/-- What parsing a line of JSON may come to: a value, a text that is not JSON,
    an integer with more digits than the interpreter converts, or a nesting
    deeper than it follows. -/
inductive Loaded (V : Type) where
  | value (v : V)
  | malformed (message : Str)
  | overlong
  | nested

/-- A model: its name, and the values it takes or what does not fit. -/
structure Model (V α : Type) where
  name : Str
  validate : V → Except Str α

section Readers

variable {V α : Type}

/-- One parsed value as a model, or the refusal naming where it came from. -/
def validated (model : Model V α) (v : V) (where_ : Str) : Except Raised α :=
  match model.validate v with
  | .ok a => .ok a
  | .error wrong =>
      .error (.unreadable (where_ ++ text " is not a " ++ model.name ++ text ": " ++ wrong))

/-- The place of a line, as a refusal names it. -/
def place (path : Str) (number : Nat) : Str :=
  path ++ text ":" ++ decimal number

/-- One line as a model, or the refusal naming the line. Only a text that is not
    JSON is refused as one. -/
def parsed (loads : Str → Loaded V) (model : Model V α) (line path : Str) (number : Nat) :
    Except Raised α :=
  match loads line with
  | .malformed message =>
      .error (.unreadable (place path number ++ text " is not JSON: " ++ message))
  -- The other two ways to fail are left to the caller of the reader.
  | .overlong => .error .valueError
  | .nested => .error .recursionError
  | .value v => validated model v (place path number)

/-- A whole file as a model, or the refusal that says which file is not one. What
    its text is to the model is the file's content here: a value, or what does
    not fit. -/
def document (what path : Str) (e : Entry (Read (Except Str α))) : Except Raised α := do
  match ← readText path e with
  | .ok a => return a
  | .error wrong => throw (.unreadable (path ++ text " is not " ++ what ++ text ": " ++ wrong))

/-- Texts one after the other, a separator between them. -/
def joined (separator : Str) : List Str → Str
  | [] => []
  | [s] => s
  | s :: rest => s ++ separator ++ joined separator rest

/-- Refuse anything in a directory of capability files that is not one of
    them, the first by name. -/
def onlyKnown (d : Folder) (what : Str) : Except Raised Unit :=
  let found := (d.entries.map Prod.fst).filter fun name => text ".jsonl" <:+ name
  match (found.insertionSort (· ≤ ·)).find? fun name => name ∉ capabilities.map setFile with
  | none => .ok ()
  | some name => .error (.unreadable (d.join name ++
      text " is not " ++ what ++ text ": it holds " ++
      joined (text ", ") ((capabilities.map setFile).insertionSort (· ≤ ·))))

/-- Refuse an artefact that names the same case twice. -/
def refuseRepeats (repr : Str → Str) (path : Str) (seen : List Str) : List Str → Except Raised Unit
  | [] => .ok ()
  | id :: rest =>
      if id ∈ seen then .error (.unreadable (path ++ text " holds " ++ repr id ++ text " twice"))
      else refuseRepeats repr path (id :: seen) rest

end Readers

end Evaluation

end ClaimTriage
