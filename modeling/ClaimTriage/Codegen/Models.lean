import ClaimTriage.Codegen.Render
import ClaimTriage.Theory.Ordered
import Mathlib.Data.List.Lex

/-!
# The Generated Models

The models the generator makes of a contract's schemas: a class for every object
and for every named enum, and nothing for a named primitive, which is written out
at each field that refers to it.

A field's annotation is found by following references. What is followed is not
remembered, so references that lead back to themselves are followed without end;
the number of frames the interpreter has for it is `frames`.

## Main definitions

* `isObject`, `isEnum`, `isClass`: What kind of schema it is.
* `checkSupported`: A schema has no keyword that the generator does not read.
* `constraints`: What a schema's keywords constrain a field by.
* `annotationOf`: The annotation of a schema, and what constrains it.
* `Field`, `field`: One field of a model.
* `enumClass`, `modelClass`, `schemaBlock`: What a schema is made into.
* `modelsSource`: The module of all of them.
-/

namespace ClaimTriage

namespace Codegen

open Theory Text Numeral Failing Yaml

def schemaPrefix : Str := text "#/components/schemas/"

/-- The string formats the contract may use, and the type each one is held as. -/
def formats : List (Str × Str) :=
  [(text "uuid", text "UUID"), (text "date", text "date"), (text "date-time", text "datetime"),
    (text "decimal", text "Decimal")]

/-- The keywords the generator reads. -/
def supportedKeywords : List Str :=
  [text "$ref", text "type", text "format", text "enum", text "description", text "properties",
    text "required", text "additionalProperties", text "items", text "pattern", text "minimum",
    text "exclusiveMinimum", text "minLength", text "maxLength", text "minItems",
    text "maxItems", text "x-max-digits", text "x-decimal-places", text "x-enum-descriptions"]

/-- The keywords that constrain a field, and the argument each one is, in the order they
    are asked for. -/
def constraintKeywords : List (Str × Str) :=
  [(text "exclusiveMinimum", text "gt"), (text "minimum", text "ge"),
    (text "minLength", text "min_length"), (text "maxLength", text "max_length"),
    (text "minItems", text "min_length"), (text "maxItems", text "max_length"),
    (text "x-max-digits", text "max_digits"), (text "x-decimal-places", text "decimal_places")]

/-- The indent of what stands in a class. -/
def indent : Str := text "    "

section Models

variable {N : Type} (doc : N → Value N) (b : Builtins N)

def isObject (schema : Value N) : Except Raised Bool := do
  let kind ← get doc (text "type") schema
  if kind.any (·.isText (text "object")) then return true
  else contains doc (text "properties") schema

def isEnum (schema : Value N) : Except Raised Bool := do
  if ← contains doc (text "enum") schema then return !(← isObject doc schema)
  else return false

/-- A reference to this schema names a type the generated code can refer to. -/
def isClass (schema : Value N) : Except Raised Bool := do
  if ← isEnum doc schema then return true else isObject doc schema

/-- A keyword the generator reads. -/
def isSupported (keyword : Value N) : Bool :=
  supportedKeywords.any (keyword.isText ·)

/-- The texts some values are, if all of them are texts. -/
def textsOf : List (Value N) → Option (List Str)
  | [] => some []
  | .scalar (.text s) :: rest => (textsOf rest).map (s :: ·)
  | _ :: _ => none

def checkSupported (schema : Value N) (place : Str) : Except Raised Unit := do
  let keywords ← iterate doc schema
  match keywords.filter (! isSupported ·) with
  | [] => return ()
  | others =>
      -- Keywords that are no texts are not put in order, or not joined.
      match textsOf others with
      | none => throw (.fault .type)
      | some names =>
          unsupported (place ++ text ": the generator does not read " ++
            joined (text ", ") (Ordered.sortBy id names))

/-- What a reference names, past what every reference begins with. -/
def referenceName (schema : Value N) (start place : Str) : Except Raised Str := do
  let refusal := place ++ text ": only references into " ++ start ++ text " are supported"
  match ← item doc (text "$ref") schema with
  | .scalar (.text reference) =>
      if start <+: reference then return reference.drop start.length else unsupported refusal
  | _ => unsupported refusal

def literal (values : Value N) (place : Str) : Except Raised Str := do
  match textsOf (← iterate doc values) with
  | some names =>
      return text "Literal[" ++ joined (text ", ") (names.map fun name =>
        text "\"" ++ name ++ text "\"") ++ text "]"
  | none => unsupported (place ++ text ": only string enums are supported")

/-- A value with a default where there is none. -/
def shownOf (v : Option (Value N)) : Str :=
  b.repr (v.getD (.scalar .null))

def stringAnnotationOf (schema : Value N) (place : Str) : Except Raised Str := do
  let format ← get doc (text "format") schema
  let refusal := place ++ text ": no support for the string format " ++ shownOf b format
  match format with
  | none | some (.scalar .null) => return text "str"
  | some (.scalar (.text name)) =>
      match formats.lookup name with
      | some held => return held
      | none => unsupported refusal
  | some v => if v.hashable then unsupported refusal else throw (.fault .type)

/-- What a keyword's value constrains a field by. -/
def argument (keyword : Str × Str) (v : Value N) : Str :=
  keyword.2 ++ text "=" ++ b.str v

/-- What a schema's keywords constrain a field by, in the order they are asked for. -/
def constraints (schema : Value N) (place : Str) : Except Raised (List Str) := do
  let numbers ← constraintKeywords.filterMapM fun keyword => do
    if ← contains doc keyword.1 schema then
      return some (argument b keyword (← item doc keyword.1 schema))
    else return none
  let patterns ← do
    if ← contains doc (text "pattern") schema then
      pure [text "pattern=" ++ b.repr (← item doc (text "pattern") schema)]
    else pure []
  checkSupported doc schema place
  return numbers ++ patterns

/-- The annotation of a schema, and the constraints it carries. -/
def annotationOf : Nat → Value N → Value N → Str → Except Raised (Str × List Str)
  | 0, _, _, _ => throw (.fault .recursion)
  | frames + 1, schema, schemas, place => do
      if ← contains doc (text "$ref") schema then
        let name ← referenceName doc schema schemaPrefix place
        let target ← item doc name schemas
        if ← isClass doc target then return (name, [])
        else annotationOf frames target schemas name
      else if ← contains doc (text "enum") schema then
        let annotated ← literal doc (← item doc (text "enum") schema) place
        return (annotated, ← constraints doc b schema place)
      else
        let kind ← get doc (text "type") schema
        if kind.any (·.isText (text "array")) then
          let (items, itemConstraints) ←
            annotationOf frames (← item doc (text "items") schema) schemas (place ++ text "[]")
          if itemConstraints ≠ [] then
            unsupported (place ++ text ": constraints on array items are not supported")
          else return (text "list[" ++ items ++ text "]", ← constraints doc b schema place)
        else if kind.any (·.isText (text "string")) then
          let annotated ← stringAnnotationOf doc b schema place
          return (annotated, ← constraints doc b schema place)
        else if kind.any (·.isText (text "integer")) then
          return (text "int", ← constraints doc b schema place)
        else unsupported (place ++ text ": no support for a schema of type " ++ shownOf b kind)

/-- A field that references a schema which documents itself carries that
    documentation. -/
def referencedDescription (schema schemas : Value N) : Except Raised (Option (Value N)) := do
  if ← contains doc (text "$ref") schema then
    let name ← referenceName doc schema schemaPrefix (b.str schema)
    let described ← get doc (text "description") (← item doc name schemas)
    match described with
    | some (.scalar (.text s)) => return some (.scalar (.text s))
    | _ => return none
  else return none

/-- One model field: what it means, its annotation, and the contract's constraints on
    it. -/
structure Field where
  comments : List Str
  name : Str
  annotation : Str
  arguments : List Str

/-- The line a field is declared on. -/
def Field.line (f : Field) : Str :=
  indent ++ f.name ++ text ": " ++ f.annotation ++
    if f.arguments = [] then []
    else text " = Field(" ++ joined (text ", ") f.arguments ++ text ")"

/-- The lines a field is written as. -/
def Field.lines (f : Field) : List Str :=
  f.comments ++ [f.line]

def field (frames : Nat) (name : Scalar) (schema schemas : Value N) (required : Bool)
    (place : Str) : Except Raised Field := do
  let (annotated, constraints) ← annotationOf doc b frames schema schemas place
  let own ← get doc (text "description") schema
  let described ← if own.any (·.truthy) then pure own
    else referencedDescription doc b schema schemas
  let comments ← comments b described indent
  return {
    comments := comments
    name := b.str (.scalar name)
    annotation := if required then annotated else annotated ++ text " | None"
    arguments := if required then constraints else text "default=None" :: constraints }

/-- What a value is looked up as, where only what can be a key is. -/
def getValue (key v : Value N) : Except Raised (Option (Value N)) :=
  match v, key with
  | .map entries, .scalar s =>
      .ok ((entries.find? fun entry => entry.1.same s).map fun entry => doc entry.2)
  | .map _, _ => .error (.fault .type)
  | _, _ => .error (.fault .attribute)

/-- What the values of an enum are described as. -/
def enumDescriptions (schema : Value N) : Except Raised (Value N) := do
  return (← get doc (text "x-enum-descriptions") schema).getD (.map [])

/-- One member of an enum. -/
structure Member where
  comments : List Str
  name : Str
  value : Str

def Member.lines (m : Member) : List Str :=
  m.comments ++ [indent ++ m.name ++ text " = \"" ++ m.value ++ text "\""]

def member (described value : Value N) (place : Str) : Except Raised Member := do
  let comments ← comments b (← getValue doc value described) indent
  let name ← memberName b value place
  return ⟨comments, name, b.str value⟩

/-- A named string enum. -/
def enumClass (name : Scalar) (schema : Value N) : Except Raised Str := do
  let place := b.str (.scalar name)
  checkSupported doc schema place
  let kind ← get doc (text "type") schema
  if ¬ kind.any (·.isText (text "string")) then
    unsupported (place ++ text ": only string enums are supported")
  else
    let described ← enumDescriptions doc schema
    let opening ← textLines (← get doc (text "description") schema) indent
    let values ← iterate doc (← item doc (text "enum") schema)
    let members ← values.mapM fun value => member doc b described value place
    return joined (text "\n") ((text "class " ++ place ++ text "(StrEnum):") :: opening ++
      members.flatMap Member.lines)

/-- The members of a set made of a value. -/
def setOf (v : Value N) : Except Raised (List (Value N)) := do
  let members ← iterate doc v
  if members.all Value.hashable then return members else throw (.fault .type)

/-- A key is a member of a set. -/
def isMember (key : Scalar) (members : List (Value N)) : Bool :=
  members.any fun
    | .scalar s => s.same key
    | _ => false

/-- A closed object schema. -/
def modelClass (frames : Nat) (name : Scalar) (schema schemas : Value N) : Except Raised Str := do
  let place := b.str (.scalar name)
  checkSupported doc schema place
  let others ← get doc (text "additionalProperties") schema
  match others with
  | some (.scalar (.bool false)) =>
      let required ← setOf doc ((← get doc (text "required") schema).getD (.seq []))
      let properties := (← get doc (text "properties") schema).getD (.map [])
      if ¬ properties.truthy then
        unsupported (place ++ text ": an object schema with no properties says nothing")
      else
        let opening ← textLines (← get doc (text "description") schema) indent
        let fields ← (← entriesOf properties).mapM fun (key, node) =>
          field doc b frames key (doc node) schemas (isMember key required)
            (place ++ text "." ++ b.str (.scalar key))
        return joined (text "\n") ((text "class " ++ place ++ text "(BaseModel):") :: opening ++
          [text "    model_config = ConfigDict(extra=\"forbid\")", []] ++
          fields.flatMap Field.lines)
  | _ => unsupported (place ++ text ": every object schema sets additionalProperties: false")

/-- One class for the schema, or nothing at all for a primitive its uses inline. -/
def schemaBlock (frames : Nat) (name : Scalar) (schema schemas : Value N) : Except Raised Str := do
  if ← isEnum doc schema then enumClass doc b name schema
  else if ← isObject doc schema then modelClass doc b frames name schema schemas
  else
    checkSupported doc schema (b.str (.scalar name))
    if ← isClass doc schema then
      unsupported (b.str (.scalar name) ++
        text ": a named schema must be an object or a string enum")
    else return []

/-- The schemas of a document. -/
def schemasOf (document : Value N) : Except Raised (Value N) := do
  item doc (text "schemas") (← item doc (text "components") document)

/-- The module of the models, behind the text it begins with. -/
def modelsSource (header : Str) (frames : Nat) (document : Value N) : Except Raised Str := do
  let schemas ← schemasOf doc document
  let blocks ← (← entriesOf schemas).mapM fun (name, node) =>
    schemaBlock doc b frames name (doc node) schemas
  return header ++ text "\n\n" ++ joined (text "\n\n") blocks ++ text "\n"

end Models

end Codegen

end ClaimTriage
