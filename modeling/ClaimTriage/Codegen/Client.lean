import ClaimTriage.Codegen.Models
import ClaimTriage.Theory.Dict
import ClaimTriage.Theory.Json

/-!
# The Generated Client

The client the generator makes of a contract's operations: a method for each of
them, named after it, and an exception for every error code.

A parameter or a response may be declared in place or by a reference. References
of parameters are followed as those of schemas are, for as many frames as there
are; a response's is followed once.

## Main definitions

* `Parameter`, `Returns`, `Operation`: What a method is made of.
* `parameter`, `bodySchema`, `successStatus`, `responseSchema`, `returns`: What is
  read for it.
* `operation`, `operations`: One operation, and all of a document's.
* `errorCodes`, `errorClasses`, `codeEntries`: The error codes and their
  exceptions.
* `pathExpression`, `methodSource`: What a method does.
* `clientSource`: The module of all of them.
* `sources`: Both modules of a document.
-/

namespace ClaimTriage

namespace Codegen

open Theory Text Numeral Failing Yaml

def parameterPrefix : Str := text "#/components/parameters/"

def responsePrefix : Str := text "#/components/responses/"

def httpMethods : List Str :=
  [text "get", text "post", text "put", text "patch", text "delete"]

/-- One parameter of one operation, as the generated method declares it. -/
structure Parameter where
  name : Str
  location : Str
  annotation : Str
  required : Bool
  header : Str

/-- What one operation answers with: the annotation, how it is parsed, and what it needs
    imported. -/
structure Returns where
  annotation : Str
  parse : Str
  imports : List Str
  adapter : Option Str

/-- One operation of the contract, as the generated client method needs it. -/
structure Operation (N : Type) where
  operationId : Str
  method : Str
  path : Scalar
  summary : Str
  description : Option (Value N)
  pathParameters : List Parameter
  headerParameters : List Parameter
  body : Option Str
  bodyArgument : Option Str
  success : Int
  returns : Returns

section Reading

variable {N : Type} (doc : N → Value N) (b : Builtins N)

/-- One declared parameter, resolved and typed. -/
def parameter : Nat → Value N → Value N → Value N → Str → Except Raised Parameter
  | 0, _, _, _, _ => throw (.fault .recursion)
  | frames + 1, node, parameters, schemas, place => do
      if ← contains doc (text "$ref") node then
        let name ← referenceName doc node parameterPrefix place
        if ← contains doc name parameters then
          parameter frames (← item doc name parameters) parameters schemas place
        else unsupported (place ++ text ": " ++ name ++ text " names no component parameter")
      else
        let location ← item doc (text "in") node
        if location.isText (text "path") ∨ location.isText (text "header") then
          let schema ← item doc (text "schema") node
          let name ← item doc (text "name") node
          let (annotated, _) ←
            annotationOf doc b frames schema schemas (place ++ text " " ++ b.str name)
          return {
            name := b.str name
            location := b.str location
            annotation := annotated
            required := ((← get doc (text "required") node).any (·.truthy))
            header := headerName (b.str name) }
        else unsupported (place ++ text ": no support for a parameter in " ++ b.str location)

/-- The schema an operation accepts, named, or nothing when it takes no body. -/
def bodySchema (declared schemas : Value N) (place : Str) : Except Raised (Option Str) := do
  if ← contains doc (text "requestBody") declared then
    let body ← item doc (text "requestBody") declared
    if (← get doc (text "required") body).any (·.truthy) then
      let media ← item doc (text "application/json") (← item doc (text "content") body)
      let schema ← item doc (text "schema") media
      let name ← referenceName doc schema schemaPrefix (place ++ text " requestBody")
      if ← contains doc name schemas then return some name
      else unsupported (place ++ text ": the request body names no schema")
    else unsupported (place ++ text ": every declared request body is required")
  else return none

/-- A response, resolved once. -/
def response (declared responses : Value N) (place : Str) : Except Raised (Value N) := do
  if ← contains doc (text "$ref") declared then
    let name ← referenceName doc declared responsePrefix place
    if ← contains doc name responses then item doc name responses
    else unsupported (place ++ text ": " ++ name ++ text " names no component response")
  else return declared

/-- The number of a status, if it is one of success. -/
def successOf (status : Value N) : Except Raised (Option Int) :=
  match status with
  | .scalar (.text s) =>
      if text "2" <+: s then
        match b.int s with
        | some n => .ok (some n)
        | none => .error (.fault .value)
      else .ok none
  | .scalar (.bytes _) => .error (.fault .type)
  | _ => .error (.fault .attribute)

def successStatus (declaredResponses : Value N) (place : Str) : Except Raised Int := do
  let successes ← (← iterate doc declaredResponses).filterMapM (successOf b)
  match successes with
  | [success] => return success
  | _ => unsupported (place ++ text ": an operation answers with exactly one success status")

def responseSchema (response : Value N) (place : Str) : Except Raised (Value N) := do
  let refusal := place ++ text ": every response carries an application/json schema"
  if ← contains doc (text "content") response then
    let content ← item doc (text "content") response
    if ← contains doc (text "application/json") content then
      item doc (text "schema") (← item doc (text "application/json") content)
    else unsupported refusal
  else unsupported refusal

/-- What one operation answers with: how the client names it, and how it parses it. -/
def returns (schema schemas : Value N) (place : Str) : Except Raised Returns := do
  if ← contains doc (text "$ref") schema then
    let name ← referenceName doc schema schemaPrefix place
    let refusal := place ++ text ": the answer must be a named object or enum"
    if ← contains doc name schemas then
      if ← isClass doc (← item doc name schemas) then
        return ⟨name, name ++ text ".model_validate", [name], none⟩
      else unsupported refusal
    else unsupported refusal
  else
    let kind ← get doc (text "type") schema
    if kind.any (·.isText (text "array")) then
      let items ← item doc (text "items") schema
      let name ← referenceName doc items schemaPrefix (place ++ text " items")
      let adapter := text "_" ++ b.upper (snake b name)
      return ⟨text "list[" ++ name ++ text "]", adapter ++ text ".validate_python", [name],
        some adapter⟩
    else unsupported (place ++ text ": the answer must be a named object or an array of one")

/-- A name, where it is one. -/
def nonempty (name : Option Str) : Option Str :=
  name.filter (! ·.isEmpty)

def operation (frames : Nat) (declared : Value N) (method : Str) (path : Scalar)
    (schemas parameters responses : Value N) (place : Str) : Except Raised (Operation N) := do
  match ← get doc (text "operationId") declared with
  | none => unsupported (place ++ text ": every operation declares an operationId")
  | some operationId =>
      if ¬ operationId.truthy then
        unsupported (place ++ text ": every operation declares an operationId")
      else
        let nodes := (← get doc (text "parameters") declared).getD (.seq [])
        let pathParameters ← (← iterate doc nodes).mapM fun node =>
          parameter doc b frames node parameters schemas place
        let headerParameters ← (← iterate doc nodes).mapM fun node =>
          parameter doc b frames node parameters schemas place
        let declaredResponses ← item doc (text "responses") declared
        let success ← successStatus doc b declaredResponses place
        let body ← bodySchema doc declared schemas place
        let answered := place ++ text " " ++ signed success
        let declaredResponse ← item doc (signed success) declaredResponses
        let answer ← responseSchema doc (← response doc declaredResponse responses place) answered
        let summary := b.str ((← get doc (text "summary") declared).getD operationId)
        let description ← get doc (text "description") declared
        let returned ← returns doc b answer schemas answered
        return {
          operationId := b.str operationId
          method := method.map upperAscii
          path := path
          summary := summary
          description := description
          pathParameters := pathParameters.filter (·.location = text "path")
          headerParameters := headerParameters.filter (·.location = text "header")
          body := body
          bodyArgument := (nonempty body).map (snake b)
          success := success
          returns := returned }

/-- The operations of one path. -/
def pathOperations (frames : Nat) (path : Scalar) (item schemas parameters responses : Value N) :
    Except Raised (List (Operation N)) := do
  (← entriesOf item).mapM fun (method, node) =>
    match method with
    | .text name =>
        if name ∈ httpMethods then
          operation doc b frames (doc node) name path schemas parameters responses
            (name.map upperAscii ++ text " " ++ b.str (.scalar path))
        else unsupported (b.str (.scalar path) ++ text ": no support for the " ++ name ++
          text " of an operation")
    | _ => unsupported (b.str (.scalar path) ++ text ": no support for the " ++
        b.str (.scalar method) ++ text " of an operation")

/-- Every operation of the contract, in the order the document declares them. -/
def operations (frames : Nat) (document : Value N) : Except Raised (List (Operation N)) := do
  let components ← item doc (text "components") document
  let schemas ← item doc (text "schemas") components
  let parameters := (← get doc (text "parameters") components).getD (.map [])
  let responses := (← get doc (text "responses") components).getD (.map [])
  let paths ← entriesOf (← item doc (text "paths") document)
  let found ← paths.mapM fun (path, node) =>
    pathOperations doc b frames path (doc node) schemas parameters responses
  return found.flatten

/-! ### Error codes -/

/-- The codes a document names, and what they are described as. -/
def errorCodes (document : Value N) : Except Raised (List (Value N) × Value N) := do
  let enum ← item doc (text "ErrorCode") (← schemasOf doc document)
  let described ← enumDescriptions doc enum
  return (← iterate doc (← item doc (text "enum") enum), described)

/-- One typed exception per documented error code. -/
def errorClasses (document : Value N) : Except Raised Str := do
  let (codes, described) ← errorCodes doc document
  let classes ← codes.mapM fun code => do
    let name ← errorName b code
    let lines ← textLines (← getValue doc code described) indent
    return [] :: (text "class " ++ name ++ text "(Refusal):") :: lines
  return joined (text "\n") classes.flatten ++ text "\n"

/-- The map from a code to the exception a caller handles it as. -/
def codeEntries (document : Value N) : Except Raised Str := do
  let (codes, _) ← errorCodes doc document
  let entries ← codes.mapM fun code => do
    let name ← memberName b code (b.str code)
    let error ← errorName b code
    return text "    ErrorCode." ++ name ++ text ": " ++ error ++ text ","
  return joined (text "\n") entries

/-! ### Methods -/

/-- What an operation means, as its docstring says. -/
def meaning (operation : Operation N) : Str :=
  match operation.description with
  | none => operation.summary
  | some described =>
      if described.truthy then operation.summary ++ text "\n\n" ++ b.str described
      else operation.summary

/-- A scalar as JSON, if it is one of JSON's. -/
def jsonDumps : Scalar → Except Raised Str
  | .null => .ok (text "null")
  | .bool true => .ok (text "true")
  | .bool false => .ok (text "false")
  | .int n => .ok (signed n)
  | .float shown _ => .ok shown
  | .text s => .ok (Json.dumpsStr s)
  | .bytes _ | .date _ => .error (.fault .type)

def openBrace : CodePoint := 0x7B

def closeBrace : CodePoint := 0x7D

/-- The value a placeholder stands for, in a formatted string. -/
def quoted (name : Str) : Str :=
  openBrace :: text "quote(str(" ++ name ++ text "), safe='')" ++ [closeBrace]

/-- A path with every word in braces replaced. What is held is read since an opening
    brace, last character first. -/
def placeholders : Option Str → Str → Str
  | none, [] => []
  | some held, [] => openBrace :: held.reverse
  | none, c :: rest =>
      if c = openBrace then placeholders (some []) rest else c :: placeholders none rest
  | some held, c :: rest =>
      if b.isWord c then placeholders (some (c :: held)) rest
      else if c = closeBrace ∧ held ≠ [] then quoted held.reverse ++ placeholders none rest
      else if c = openBrace then openBrace :: held.reverse ++ placeholders (some []) rest
      else openBrace :: held.reverse ++ c :: placeholders none rest

/-- The request path, quoted where a parameter stands in it. -/
def pathExpression (operation : Operation N) : Except Raised Str :=
  if operation.pathParameters = [] then jsonDumps operation.path
  else match operation.path with
    | .text path => .ok (text "f\"" ++ placeholders b none path ++ text "\"")
    | _ => .error (.fault .type)

/-- One client method: its signature, what the operation means, and the single call it
    makes. -/
def methodSource (operation : Operation N) : Except Raised Str := do
  let described ← textLines (some (.scalar (.text (meaning b operation))) : Option (Value N))
    (indent ++ indent)
  let path ← pathExpression b operation
  let declaration (p : Parameter) : Str :=
    text "        " ++ p.header ++ text ": " ++ p.annotation ++ text ","
  return joined (text "\n")
    ([text "    def " ++ operation.operationId ++ text "(", text "        self,"] ++
    operation.pathParameters.map declaration ++
    (match nonempty operation.bodyArgument with
      | some argument =>
          [text "        " ++ argument ++ text ": " ++ operation.body.getD (text "None") ++
            text ","]
      | none => []) ++
    (if operation.headerParameters = [] then []
      else text "        *," :: operation.headerParameters.map declaration) ++
    [text "    ) -> " ++ operation.returns.annotation ++ text ":"] ++ described ++
    [text "        return self._request(",
      text "            \"" ++ operation.method ++ text "\",",
      text "            " ++ path ++ text ",",
      text "            parse=" ++ operation.returns.parse ++ text ","] ++
    (match nonempty operation.bodyArgument with
      | some argument =>
          [text "            body=" ++ argument ++ text ".model_dump(mode=\"json\"),"]
      | none => []) ++
    operation.headerParameters.map (fun p => text "            headers=" ++ openBrace ::
      text "\"" ++ p.name ++ text "\": " ++ p.header ++ [closeBrace] ++ text ",") ++
    [text "            expected=" ++ signed operation.success ++ text ",", text "        )"])

/-! ### The module -/

/-- The texts the sources share, whatever the document. -/
structure Fixed where
  modelsHeader : Str
  clientDocstring : List Str
  clientErrorsBase : Str
  codesOpen : Str
  clientHelpers : Str
  clientClass : Str

/-- The contract models the generated signatures name. -/
def clientModels (operations : List (Operation N)) : List Str :=
  operations.flatMap fun operation =>
    operation.returns.imports ++ (nonempty operation.body).toList

def usesQuote (operations : List (Operation N)) : Bool :=
  operations.any fun operation => operation.pathParameters ≠ []

def usesUuid (operations : List (Operation N)) : Bool :=
  operations.any fun operation =>
    operation.pathParameters.any fun parameter => parameter.annotation = text "UUID"

/-- What the client module imports, after its docstring. -/
def clientImports (operations : List (Operation N)) (adapters : List (Str × Returns)) : List Str :=
  [[], text "from __future__ import annotations", [],
    text "from collections.abc import Callable, Mapping", text "from types import TracebackType",
    text "from typing import Final, NoReturn, Self"] ++
  (if usesQuote operations then [text "from urllib.parse import quote"] else []) ++
  (if usesUuid operations then [text "from uuid import UUID"] else []) ++
  [[], text "import httpx2",
    text "from pydantic import " ++
      (if adapters = [] then text "ValidationError" else text "TypeAdapter, ValidationError"),
    [], text "from claim_triage.contract.models import ("] ++
  (Ordered.sortBy id ((clientModels operations ++
    [text "ErrorCode", text "ErrorResponse"]).dedup)).map
    (fun name => text "    " ++ name ++ text ",") ++
  [text ")"]

/-- The client module: the runtime every call shares, then one method per operation. -/
def clientSource (fixed : Fixed) (frames : Nat) (document : Value N) : Except Raised Str := do
  let operations ← operations doc b frames document
  let adapters := Dict.ofList (operations.filterMap fun operation =>
    (nonempty operation.returns.adapter).map fun adapter => (adapter, operation.returns))
  let classes ← errorClasses doc b document
  let entries ← codeEntries doc b document
  let methods ← operations.mapM (methodSource b)
  return joined (text "\n") (fixed.clientDocstring ++ clientImports operations adapters) ++
    joined (text "\n") ([fixed.clientErrorsBase, classes, fixed.codesOpen, entries,
      fixed.clientHelpers] ++
      adapters.map (fun (adapter, returned) =>
        adapter ++ text ": Final = TypeAdapter(" ++ returned.annotation ++ text ")\n") ++
      [fixed.clientClass] ++ methods.map (text "\n" ++ ·)) ++ text "\n"

/-- Both modules of a document. -/
def sources (fixed : Fixed) (frames : Nat) (document : Value N) : Except Raised (Str × Str) := do
  let models ← modelsSource doc b fixed.modelsHeader frames document
  let client ← clientSource doc b fixed frames document
  return (models, client)

end Reading

end Codegen

end ClaimTriage
