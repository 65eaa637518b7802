import ClaimTriage.Codegen.Client
import ClaimTriage.Codegen.Reading

/-!
# What Is Read of Operations

Which documents the client is made of without a fault.

As for the models, every condition is on the document, in the order its places
are read in, and its last argument is what is asked of what is read next. What
the methods are written out as is read after all the operations have been, and
is asked of the operations as they are declared.

## Main definitions

* `At`, `IfIn`, `Refers`: What is asked of a value before the next.
* `ParameterRead`, `BodyRead`, `ResponseRead`, `ReturnsRead`, `OperationRead`: An
  operation is read.
* `CodesRead`, `MethodRead`: The error codes and the methods are.
* `SourcesRead`: A whole document is.

## Theorems

* `settles_sources`: Both modules of a document are made exactly if it is read.
-/

namespace ClaimTriage

namespace Codegen

open Theory Text Numeral Failing Yaml

section Conditions

variable {N : Type} (doc : N → Value N) (b : Builtins N)

/-- Under a key of a mapping stands something for which `P` holds. -/
def At (s : Str) (v : Value N) (P : Value N → Prop) : Prop :=
  ∃ entries w, v = .map entries ∧ under doc s entries = some w ∧ P w

/-- It can be asked whether a text is in a value, and where it is, `Q` holds. -/
def IfIn (s : Str) (v : Value N) (Q : Prop) : Prop :=
  ∃ found, holds doc s v = some found ∧ (found = true → Q)

/-- A reference past `start` is to something for which `P` holds. -/
def Refers (start : Str) (v : Value N) (P : Str → Prop) : Prop :=
  At doc (text "$ref") v fun reference =>
    ∀ name, reference = .scalar (.text (start ++ name)) → P name

/-- A parameter is read. References to parameters are followed for so many steps. -/
def ParameterRead (parameters schemas : Value N) : Nat → Value N → Prop → Prop
  | 0, _, _ => False
  | frames + 1, node, Q => ∃ entries, node = .map entries ∧
      if (find (text "$ref") entries).isSome then
        Refers doc parameterPrefix node fun name =>
          IfIn doc name parameters (At doc name parameters fun target =>
            ParameterRead parameters schemas frames target Q)
      else At doc (text "in") node fun location =>
        location.isText (text "path") ∨ location.isText (text "header") →
          At doc (text "schema") node fun schema => At doc (text "name") node fun _ =>
            SchemaRead doc schemas frames schema fun _ => Q

/-- A request body is read. -/
def BodyRead (schemas declared : Value N) (Q : Prop) : Prop :=
  ∃ entries, declared = .map entries ∧
    if (find (text "requestBody") entries).isSome then
      At doc (text "requestBody") declared fun body => ∃ fields, body = .map fields ∧
        ((under doc (text "required") fields).any (·.truthy) →
          At doc (text "content") body fun content =>
            At doc (text "application/json") content fun media =>
              At doc (text "schema") media fun schema =>
                Refers doc schemaPrefix schema fun name => IfIn doc name schemas Q)
    else Q

/-- A response is read, for what it is or for what it refers to. -/
def ResponseRead (responses declared : Value N) (P : Value N → Prop) : Prop :=
  ∃ found, holds doc (text "$ref") declared = some found ∧
    if found then
      Refers doc responsePrefix declared fun name =>
        IfIn doc name responses (At doc name responses P)
    else P declared

/-- The schema of a response is read. -/
def ContentRead (response : Value N) (P : Value N → Prop) : Prop :=
  IfIn doc (text "content") response (At doc (text "content") response fun content =>
    IfIn doc (text "application/json") content (At doc (text "application/json") content
      fun media => At doc (text "schema") media P))

/-- What an operation answers with is read. -/
def ReturnsRead (schemas schema : Value N) (Q : Prop) : Prop :=
  ∃ entries, schema = .map entries ∧
    if (find (text "$ref") entries).isSome then
      Refers doc schemaPrefix schema fun name =>
        IfIn doc name schemas (At doc name schemas fun target =>
          ∃ fields, target = .map fields ∧ (IsClass doc fields → Q))
    else TypeIs doc (text "array") entries →
      At doc (text "items") schema fun items => Refers doc schemaPrefix items fun _ => Q

/-- A status is a text, and if it looks like one of success, the integer it is can be
    read. -/
def StatusRead (status : Value N) : Prop :=
  ∃ s, status = .scalar (.text s) ∧ (text "2" <+: s → (b.int s).isSome)

/-- The integer a status of success is. -/
def successIn : Value N → Option Int
  | .scalar (.text s) => if text "2" <+: s then b.int s else none
  | _ => none

/-- The statuses of success. -/
def successesOf (statuses : List (Value N)) : List Int :=
  statuses.filterMap (successIn b)

/-- The statuses are read, if there is one of success it is what is answered with. -/
def StatusesRead (responses : Value N) (P : Int → Prop) : Prop :=
  ∃ statuses, elements doc responses = some statuses ∧ (∀ status ∈ statuses, StatusRead b status) ∧
    ∀ success, successesOf b statuses = [success] → P success

/-- An operation is read. -/
def OperationRead (schemas parameters responses : Value N) (frames : Nat) (declared : Value N)
    (Q : Prop) : Prop :=
  ∃ entries, declared = .map entries ∧
    ((under doc (text "operationId") entries).any (·.truthy) →
      ∃ nodes, elements doc ((under doc (text "parameters") entries).getD (.seq [])) = some nodes ∧
        InTurn (ParameterRead doc parameters schemas frames) nodes
          (At doc (text "responses") declared fun answers =>
            StatusesRead doc b answers fun success =>
              BodyRead doc schemas declared (At doc (signed success) answers fun answer =>
                ResponseRead doc responses answer fun response =>
                  ContentRead doc response fun schema => ReturnsRead doc schemas schema Q)))

/-- The operations of a path are read. -/
def PathRead (schemas parameters responses : Value N) (frames : Nat) (item : Value N)
    (Q : Prop) : Prop :=
  ∃ methods, item = .map methods ∧
    InTurn (fun method q => (∃ name ∈ httpMethods, method.1 = .text name) →
      OperationRead doc b schemas parameters responses frames (doc method.2) q) methods Q

/-- The operations are read. -/
def OperationsRead (frames : Nat) (document : Value N) (Q : Prop) : Prop :=
  At doc (text "components") document fun components =>
    At doc (text "schemas") components fun schemas =>
      ∃ fields, components = .map fields ∧
        At doc (text "paths") document fun item => ∃ paths, item = .map paths ∧
          InTurn (fun path q => PathRead doc b schemas
            ((under doc (text "parameters") fields).getD (.map []))
            ((under doc (text "responses") fields).getD (.map [])) frames (doc path.2) q) paths Q

/-- What is said of the error codes, and of what they are described as. -/
def CodesAre (document : Value N) (P : List (Value N) × Value N → Prop) : Prop :=
  At doc (text "components") document fun components =>
    At doc (text "schemas") components fun schemas =>
      At doc (text "ErrorCode") schemas fun enum => ∃ entries, enum = .map entries ∧
        At doc (text "enum") enum fun values =>
          ∃ codes, elements doc values = some codes ∧ P (codes, descriptionsOf doc entries)

/-- An error code is a text, described by one that is not all blank or by nothing. -/
def CodeRead (described code : Value N) : Prop :=
  ∃ s, code = .scalar (.text s) ∧
    ∃ names, described = .map names ∧ Textable (under doc s names)

/-- The error codes are read. -/
def CodesRead (document : Value N) (Q : Prop) : Prop :=
  CodesAre doc document fun r =>
    (∀ code ∈ r.1, CodeRead doc r.2 code) ∧ ((∀ s, .scalar (.text s) ∈ r.1 → Usable s) → Q)

/-- A parameter is declared to be in a place, there or where it refers to. -/
inductive Located (parameters : Value N) (location : Str) : Value N → Prop where
  | here {entries : List (Scalar × N)} (href : under doc (text "$ref") entries = none)
      (hin : under doc (text "in") entries = some (.scalar (.text location))) :
      Located parameters location (.map entries)
  | there {entries all : List (Scalar × N)} {name : Str} {target : Value N}
      (href : under doc (text "$ref") entries =
        some (.scalar (.text (parameterPrefix ++ name))))
      (hall : parameters = .map all) (htarget : under doc name all = some target)
      (hlocated : Located parameters location target) :
      Located parameters location (.map entries)

/-- An operation has a parameter in its path. -/
def PathUsed (parameters : Value N) (entries : List (Scalar × N)) : Prop :=
  ∃ nodes, elements doc ((under doc (text "parameters") entries).getD (.seq [])) = some nodes ∧
    ∃ node ∈ nodes, Located doc parameters (text "path") node

/-- What an operation is documented as. -/
def meaningOf (entries : List (Scalar × N)) : Str :=
  let summary := b.str ((under doc (text "summary") entries).getD
    ((under doc (text "operationId") entries).getD (.scalar .null)))
  match under doc (text "description") entries with
  | none => summary
  | some described =>
      if described.truthy then summary ++ text "\n\n" ++ b.str described else summary

/-- A key that JSON has. -/
def Dumpable : Scalar → Prop
  | .bytes _ | .date _ => False
  | _ => True

/-- A method is written out: what it means is not all blank, and its path is a text where
    something is replaced in it. -/
def MethodRead (parameters : Value N) (path : Scalar) (entries : List (Scalar × N)) : Prop :=
  Textable (some (.scalar (.text (meaningOf doc b entries))) : Option (Value N)) ∧
    (PathUsed doc parameters entries → ∃ s, path = .text s) ∧
    (¬ PathUsed doc parameters entries → Dumpable path)

/-- The methods are written out. -/
def MethodsRead (document : Value N) : Prop :=
  At doc (text "components") document fun components => ∃ fields, components = .map fields ∧
    At doc (text "paths") document fun item => ∃ paths, item = .map paths ∧
      ∀ path ∈ paths, ∃ methods, doc path.2 = .map methods ∧
        ∀ method ∈ methods, ∃ entries, doc method.2 = .map entries ∧
          MethodRead doc b ((under doc (text "parameters") fields).getD (.map [])) path.1 entries

/-- A document is read. -/
def SourcesRead (frames : Nat) (document : Value N) (Q : Prop) : Prop :=
  At doc (text "components") document fun components =>
    At doc (text "schemas") components fun schemas =>
      ModelsRead doc schemas frames
        (OperationsRead doc b frames document
          (CodesRead doc document (MethodsRead doc b document ∧ Q)))

end Conditions

/-! ### Reading an operation -/

section Operations

variable {N : Type} {doc : N → Value N} {b : Builtins N} {schemas : Value N} {α : Type}

/-- What an item is asked for, it is asked for of what stands there. -/
theorem settles_item_bind {P : α → Prop} {R : Value N → Prop} {s : Str} {v : Value N}
    {f : Value N → Except Raised α} (h : ∀ w, Settles P (f w) ↔ R w) :
    Settles P (item doc s v >>= f) ↔ At doc s v R := by
  rw [settles_bind, settles_congr h, settles_item]
  rfl

theorem settles_refers_bind {P : α → Prop} {R : Str → Prop} {start place : Str} {v : Value N}
    {f : Str → Except Raised α} (h : ∀ name, Settles P (f name) ↔ R name) :
    Settles P (referenceName doc v start place >>= f) ↔ Refers doc start v R := by
  rw [settles_bind, settles_congr h, settles_referenceName]
  simp only [Refers, At]

/-- Where a text is not in a value, the document is refused. -/
theorem settles_ifIn {P : α → Prop} {Q : Prop} {s message : Str} {v : Value N}
    {x : Except Raised α} (h : Settles P x ↔ Q) :
    Settles P (do if ← contains doc s v then x else unsupported message) ↔ IfIn doc s v Q := by
  rw [settles_bind, settles_contains]
  refine exists_congr fun found => and_congr_right fun _ => ?_
  cases found with
  | false => exact ⟨fun _ h => absurd h Bool.false_ne_true, fun _ => trivial⟩
  | true => exact ⟨fun hx _ => h.mp hx, fun hQ => h.mpr (hQ rfl)⟩

/-- What a value is asked for either way is asked of a mapping. -/
theorem settles_ifHeld {P : α → Prop} {s : Str} {v : Value N} {x y : Except Raised α}
    (hx : Settles P x → ∃ entries, v = .map entries)
    (hy : Settles P y → ∃ entries, v = .map entries) :
    Settles P (do if ← contains doc s v then x else y) ↔
      ∃ entries, v = .map entries ∧ Settles P (if (find s entries).isSome then x else y) := by
  rw [settles_bind]
  constructor
  · intro h
    -- Both branches ask for entries again, so they are there whichever is taken.
    have hentries : ∃ entries, v = .map entries := by
      rcases settles_contains.mp h with ⟨found, _, h⟩
      cases found with
      | false => exact hy h
      | true => exact hx h
    rcases hentries with ⟨entries, rfl⟩
    exact ⟨entries, rfl, h⟩
  · rintro ⟨entries, rfl, h⟩
    exact h

theorem exists_of_settles_item {P : α → Prop} {s : Str} {v : Value N}
    {f : Value N → Except Raised α} (h : Settles P (item doc s v >>= f)) :
    ∃ entries, v = .map entries := by
  rcases settles_item.mp (settles_bind.mp h) with ⟨entries, _, hmap, _⟩
  exact ⟨entries, hmap⟩

theorem exists_of_settles_get {P : α → Prop} {s : Str} {v : Value N}
    {f : Option (Value N) → Except Raised α} (h : Settles P (Yaml.get doc s v >>= f)) :
    ∃ entries, v = .map entries := by
  rcases settles_get.mp (settles_bind.mp h) with ⟨entries, hmap, _⟩
  exact ⟨entries, hmap⟩

theorem exists_of_settles_refers {P : α → Prop} {start place : Str} {v : Value N}
    {f : Str → Except Raised α} (h : Settles P (referenceName doc v start place >>= f)) :
    ∃ entries, v = .map entries := by
  rcases settles_referenceName.mp (settles_bind.mp h) with ⟨entries, _, hmap, _⟩
  exact ⟨entries, hmap⟩

/-! ### Parameters -/

theorem settles_parameter {Q : Prop} {parameters : Value N} {frames : Nat} {node : Value N}
    {place : Str} :
    Settles (fun _ => Q) (parameter doc b frames node parameters schemas place) ↔
      ParameterRead doc parameters schemas frames node Q := by
  induction frames generalizing node with
  | zero => exact Iff.rfl
  | succ frames ih =>
      rw [parameter, ParameterRead]
      refine (settles_ifHeld exists_of_settles_refers exists_of_settles_item).trans ?_
      refine exists_congr fun entries => and_congr_right ?_
      rintro rfl
      split
      · exact settles_refers_bind fun name => settles_ifIn (settles_item_bind fun target => ih)
      · refine settles_item_bind fun location => ?_
        -- A parameter elsewhere than in the path or a header is refused.
        by_cases hlocation : location.isText (text "path") ∨ location.isText (text "header")
        · rw [if_pos hlocation, eq_true hlocation, true_implies]
          refine settles_item_bind fun schema => settles_item_bind fun name => ?_
          refine (settles_bind_of_const fun r => ?_).trans
            (settles_annotationOf _ _ (P := fun _ => Q))
          exact Iff.rfl
        · rw [if_neg hlocation]
          exact ⟨fun _ h => absurd h hlocation, fun _ => trivial⟩

/-! ### What goes in and comes out -/

theorem settles_bodySchema {Q : Prop} {entries : List (Scalar × N)} {place : Str} :
    Settles (fun _ => Q) (bodySchema doc (.map entries) schemas place) ↔
      BodyRead doc schemas (.map entries) Q := by
  unfold bodySchema BodyRead
  rw [contains_map, ok_bind]
  simp only [Value.map.injEq, exists_eq_left']
  split
  · refine settles_item_bind fun body => ?_
    rw [settles_bind, settles_get]
    refine exists_congr fun fields => and_congr_right fun _ => ?_
    -- A body that may be left out is refused before its content is looked at.
    by_cases hrequired : (under doc (text "required") fields).any (·.truthy)
    · rw [if_pos hrequired, eq_true hrequired, true_implies]
      refine settles_item_bind fun content => settles_item_bind fun media =>
        settles_item_bind fun schema => settles_refers_bind fun name => settles_ifIn ?_
      exact Iff.rfl
    · rw [if_neg hrequired]
      exact ⟨fun _ h => absurd h hrequired, fun _ => trivial⟩
  · exact Iff.rfl

theorem settles_response {P : Value N → Prop} {responses declared : Value N} {place : Str} :
    Settles P (response doc declared responses place) ↔ ResponseRead doc responses declared P := by
  unfold response ResponseRead
  rw [settles_bind, settles_contains]
  refine exists_congr fun found => and_congr_right fun _ => ?_
  split
  · refine settles_refers_bind fun name => settles_ifIn ?_
    exact settles_item
  · exact Iff.rfl

theorem settles_responseSchema {P : Value N → Prop} {response : Value N} {place : Str} :
    Settles P (responseSchema doc response place) ↔ ContentRead doc response P := by
  unfold responseSchema ContentRead
  refine settles_ifIn (settles_item_bind fun content => settles_ifIn ?_)
  exact settles_item_bind fun media => settles_item

theorem settles_returns {Q : Prop} {schema : Value N} {place : Str} :
    Settles (fun _ => Q) (returns doc b schema schemas place) ↔
      ReturnsRead doc schemas schema Q := by
  unfold returns ReturnsRead
  refine (settles_ifHeld exists_of_settles_refers exists_of_settles_get).trans ?_
  refine exists_congr fun entries => and_congr_right ?_
  rintro rfl
  split
  · refine settles_refers_bind fun name => settles_ifIn (settles_item_bind fun target => ?_)
    rw [settles_bind, settles_isClass]
    refine exists_congr fun fields => and_congr_right fun _ => ?_
    -- What is not a class is refused, and with it the answer.
    by_cases hclass : IsClass doc fields
    · rw [decide_eq_true hclass, if_pos rfl, eq_true hclass, true_implies]
      exact Iff.rfl
    · rw [decide_eq_false hclass, if_neg Bool.false_ne_true]
      exact ⟨fun _ h => absurd h hclass, fun _ => trivial⟩
  · rw [get_map, ok_bind]
    by_cases harray : TypeIs doc (text "array") entries
    · rw [if_pos (typeIs_iff.mp harray), eq_true harray, true_implies]
      refine settles_item_bind fun items => settles_refers_bind fun name => ?_
      exact Iff.rfl
    · rw [if_neg fun h => harray (typeIs_iff.mpr h)]
      exact ⟨fun _ h => absurd h harray, fun _ => trivial⟩

/-! ### Statuses -/

/-- A status that is read counts as one of success or not. -/
theorem settles_successOf {P : Option Int → Prop} {status : Value N} :
    Settles P (successOf b status) ↔
      StatusRead b status ∧ P (successIn b status) := by
  cases status with
  | scalar s =>
      cases s with
      | text s =>
          simp only [successOf, StatusRead, successIn, Value.scalar.injEq, Scalar.text.injEq,
            exists_eq_left']
          -- Only a status that begins as a success does is read as a number.
          by_cases hstart : text "2" <+: s
          · rw [if_pos hstart, if_pos hstart]
            cases b.int s with
            | none => exact ⟨False.elim, fun h => absurd (h.1 hstart) Bool.false_ne_true⟩
            | some n => exact ⟨fun h => ⟨fun _ => rfl, h⟩, And.right⟩
          · rw [if_neg hstart, if_neg hstart]
            exact ⟨fun h => ⟨fun hs => absurd hs hstart, h⟩, And.right⟩
      | _ => exact ⟨False.elim, fun ⟨⟨_, h, _⟩, _⟩ => absurd h nofun⟩
  | seq | map | set => exact ⟨False.elim, fun ⟨⟨_, h, _⟩, _⟩ => absurd h nofun⟩

theorem settles_successes {P : List Int → Prop} {statuses : List (Value N)} :
    Settles P (statuses.filterMapM (successOf b)) ↔
      (∀ status ∈ statuses, StatusRead b status) ∧ P (successesOf b statuses) := by
  induction statuses generalizing P with
  | nil => exact ⟨fun h => ⟨fun _ h => absurd h List.not_mem_nil, h⟩, And.right⟩
  | cons status rest ih =>
      rw [List.filterMapM_cons, settles_bind, settles_successOf, List.forall_mem_cons, and_assoc]
      refine and_congr_right fun _ => ?_
      rw [successesOf, List.filterMap_cons]
      cases successIn b status with
      | none => exact ih
      | some success =>
          rw [settles_bind]
          exact ih

theorem settles_successStatus {P : Int → Prop} {responses : Value N} {place : Str} :
    Settles P (successStatus doc b responses place) ↔ StatusesRead doc b responses P := by
  unfold successStatus StatusesRead
  rw [settles_bind, settles_iterate]
  refine exists_congr fun statuses => and_congr_right fun _ => ?_
  rw [settles_bind, settles_successes]
  refine and_congr_right fun _ => ?_
  split
  · rename_i success heq
    rw [heq]
    exact ⟨fun h _ hone => List.head_eq_of_cons_eq hone ▸ h, fun h => h success rfl⟩
  · rename_i hnone
    exact ⟨fun _ success hone => absurd hone (hnone success), fun _ => trivial⟩

/-! ### Operations -/

theorem settles_operation {Q : Prop} {frames : Nat} {declared parameters responses : Value N}
    {method : Str} {path : Scalar} {place : Str} :
    Settles (fun _ => Q)
        (operation doc b frames declared method path schemas parameters responses place) ↔
      OperationRead doc b schemas parameters responses frames declared Q := by
  unfold operation OperationRead
  rw [settles_bind, settles_get]
  refine exists_congr fun entries => and_congr_right ?_
  rintro rfl
  cases hid : under doc (text "operationId") entries with
  | none => exact ⟨fun _ h => absurd h Bool.false_ne_true, fun _ => trivial⟩
  | some operationId =>
      rw [Option.any_some]
      by_cases htruthy : operationId.truthy
      · simp only []
        rw [if_neg (not_not_intro htruthy), eq_true htruthy, true_implies, get_map, ok_bind]
        rw [settles_bind, settles_iterate]
        refine exists_congr fun nodes => and_congr_right fun hnodes => ?_
        have hiterate : (iterate doc ((under doc (text "parameters") entries).getD (.seq [])) :
            Except Raised (List (Value N))) = .ok nodes := by
          simp only [iterate, hnodes]
        simp only [hiterate, ok_bind]
        -- The parameters are read twice, for those in the path and those in a header.
        have hparameters : ∀ Q' : Prop, Settles (fun _ => Q') (nodes.mapM fun node =>
            parameter doc b frames node parameters schemas place) ↔
            InTurn (ParameterRead doc parameters schemas frames) nodes Q' := fun Q' =>
          settles_mapM.trans (inTurn_congr fun node _ q => settles_parameter)
        refine (settles_twice_of_const fun read => ?_).trans (hparameters _)
        refine settles_item_bind fun answers => ?_
        refine (settles_bind.trans (settles_congr fun success => ?_)).trans settles_successStatus
        refine (settles_bind_of_const fun body => ?_).trans settles_bodySchema
        refine settles_item_bind fun answer => ?_
        refine (settles_bind.trans (settles_congr fun response => ?_)).trans settles_response
        refine (settles_bind.trans (settles_congr fun schema => ?_)).trans settles_responseSchema
        simp only [get_map, ok_bind]
        refine (settles_bind_of_const fun returned => ?_).trans settles_returns
        exact settles_pure
      · simp only []
        rw [if_pos htruthy]
        exact ⟨fun _ h => absurd h htruthy, fun _ => trivial⟩

theorem settles_pathOperations {Q : Prop} {frames : Nat} {path : Scalar}
    {item parameters responses : Value N} :
    Settles (fun _ => Q) (pathOperations doc b frames path item schemas parameters responses) ↔
      PathRead doc b schemas parameters responses frames item Q := by
  unfold pathOperations PathRead
  rw [settles_bind, settles_entriesOf]
  refine exists_congr fun methods => and_congr_right fun _ => ?_
  rw [settles_mapM]
  refine inTurn_congr fun method _ q => ?_
  rcases method with ⟨key, node⟩
  cases key with
  | text name =>
      -- An unknown method is refused before its operation is looked at.
      by_cases hname : name ∈ httpMethods
      · simp only []
        rw [if_pos hname, settles_operation]
        exact ⟨fun h _ => h, fun h => h ⟨name, hname, rfl⟩⟩
      · simp only []
        rw [if_neg hname]
        refine ⟨?_, fun _ => trivial⟩
        rintro _ ⟨_, hmem, heq⟩
        cases heq
        exact absurd hmem hname
  | _ => exact ⟨fun _ ⟨_, _, h⟩ => absurd h nofun, fun _ => trivial⟩

theorem settles_operations {Q : Prop} {frames : Nat} {document : Value N} :
    Settles (fun _ => Q) (operations doc b frames document) ↔
      OperationsRead doc b frames document Q := by
  unfold operations OperationsRead
  refine settles_item_bind fun components => settles_item_bind fun schemas => ?_
  rw [settles_bind, settles_get]
  refine exists_congr fun fields => and_congr_right ?_
  rintro rfl
  rw [get_map, ok_bind]
  refine settles_item_bind fun item => ?_
  rw [settles_bind, settles_entriesOf]
  refine exists_congr fun paths => and_congr_right fun _ => ?_
  rw [settles_bind_of_const fun _ => settles_pure, settles_mapM]
  exact inTurn_congr fun path _ q => settles_pathOperations

/-! ### Error codes -/

theorem settles_schemasOf {P : Value N → Prop} {document : Value N} :
    Settles P (schemasOf doc document) ↔
      At doc (text "components") document fun components => At doc (text "schemas") components P :=
  settles_item_bind fun _ => settles_item

theorem settles_errorCodes {P : List (Value N) × Value N → Prop} {document : Value N} :
    Settles P (errorCodes doc document) ↔
      CodesAre doc document P := by
  unfold errorCodes CodesAre
  refine (settles_bind.trans (settles_congr fun schemas => ?_)).trans settles_schemasOf
  refine settles_item_bind fun enum => ?_
  rw [settles_bind, settles_enumDescriptions]
  refine exists_congr fun entries => and_congr_right fun _ => ?_
  refine settles_item_bind fun values => ?_
  rw [settles_bind, settles_iterate]
  rfl

/-- Only for a text is there an exception. -/
theorem settles_errorName_bind {P : α → Prop} {R : Str → Prop} {code : Value N}
    {f : Str → Except Raised α}
    (h : ∀ s, code = .scalar (.text s) → ∀ name, Settles P (f name) ↔ R s) :
    Settles P (errorName b code >>= f) ↔ ∃ s, code = .scalar (.text s) ∧ R s := by
  constructor
  · intro hsettles
    have hname : Settles (fun _ => True) (errorName b code) :=
      (settles_iff.mp (settles_bind.mp hsettles)).1
    rcases (settles_errorName.mp hname).1 with ⟨s, rfl⟩
    exact ⟨s, rfl, (h s rfl _).mp hsettles⟩
  · rintro ⟨s, rfl, hR⟩
    exact (h s rfl _).mpr hR

theorem settles_errorClasses {Q : Prop} {document : Value N} :
    Settles (fun _ => Q) (errorClasses doc b document) ↔
      CodesAre doc document fun r => (∀ code ∈ r.1, CodeRead doc r.2 code) ∧ Q := by
  unfold errorClasses
  refine (settles_bind.trans (settles_congr ?_)).trans settles_errorCodes
  rintro ⟨codes, described⟩
  simp only []
  rw [settles_bind_of_const fun _ => settles_pure, settles_mapM, ← inTurn_and]
  refine inTurn_congr fun code _ q => ?_
  unfold CodeRead
  rw [← exists_and_right]
  simp only [and_assoc]
  refine settles_errorName_bind ?_
  rintro s rfl name
  rw [settles_bind, settles_getValue, ← exists_and_right]
  refine exists_congr fun names => ?_
  rw [and_assoc]
  refine and_congr_right fun _ => ?_
  rw [settles_bind_of_const fun _ => settles_pure, settles_textLines]

theorem settles_codeEntries {Q : Prop} {document : Value N} :
    Settles (fun _ => Q) (codeEntries doc b document) ↔
      CodesAre doc document fun r => InTurn (fun code q =>
        ∃ s, code = .scalar (.text s) ∧ (Usable s → q)) r.1 Q := by
  unfold codeEntries
  refine (settles_bind.trans (settles_congr ?_)).trans settles_errorCodes
  rintro ⟨codes, described⟩
  simp only []
  rw [settles_bind_of_const fun _ => settles_pure, settles_mapM]
  refine inTurn_congr fun code _ q => ?_
  have hentry : ∀ name, Settles (fun _ => q) (do
      let error ← errorName b code
      return text "    ErrorCode." ++ name ++ text ": " ++ error ++ text ",") ↔
      (∃ s, code = .scalar (.text s)) ∧ q := by
    intro name
    rw [settles_bind_of_const fun _ => settles_pure, settles_errorName]
  refine ((settles_bind_of_const hentry).trans settles_memberName).trans ?_
  refine exists_congr fun s => and_congr_right fun htext => imp_congr_right fun _ => ?_
  exact and_iff_right ⟨s, htext⟩

/-- There is only one list of codes in a document. -/
theorem codesAre_twice {R P : List (Value N) × Value N → Prop} {document : Value N} :
    CodesAre doc document (fun r => R r ∧ CodesAre doc document P) ↔
      CodesAre doc document fun r => R r ∧ P r := by
  rw [← settles_errorCodes, ← settles_errorCodes, ← settles_errorCodes]
  cases errorCodes doc document with
  | error e => exact Iff.rfl
  | ok r => exact Iff.rfl

/-- Codes that are texts are listed if each of them can be named, or else one is refused. -/
theorem inTurn_usable {codes : List (Value N)} {Q : Prop}
    (htexts : ∀ code ∈ codes, ∃ s, code = .scalar (.text s)) :
    InTurn (fun code q => ∃ s, code = .scalar (.text s) ∧ (Usable s → q)) codes Q ↔
      ((∀ s, .scalar (.text s) ∈ codes → Usable s) → Q) := by
  have hcongr : InTurn (fun code q => ∃ s, code = .scalar (.text s) ∧ (Usable s → q)) codes Q ↔
      InTurn (fun code q => (∀ s, code = .scalar (.text s) → Usable s) → q) codes Q := by
    refine inTurn_congr fun code hcode q => ?_
    rcases htexts code hcode with ⟨s, rfl⟩
    simp only [Value.scalar.injEq, Scalar.text.injEq, exists_eq_left', forall_eq']
  rw [hcongr, inTurn_imp]
  refine imp_congr_left ⟨fun h s hs => h _ hs s rfl, ?_⟩
  rintro h code hcode s rfl
  exact h s hcode

/-- The exceptions are written and then listed, by codes that are texts by then. -/
theorem settles_codes {P : α → Prop} {Q : Prop} {document : Value N}
    {f : Str → Str → Except Raised α}
    (h : ∀ classes entries, Settles P (f classes entries) ↔ Q) :
    Settles P (do
      let classes ← errorClasses doc b document
      let entries ← codeEntries doc b document
      f classes entries) ↔ CodesRead doc document Q := by
  have hentries : ∀ classes, Settles P (do
      let entries ← codeEntries doc b document
      f classes entries) ↔ CodesAre doc document fun r => InTurn (fun code q =>
        ∃ s, code = .scalar (.text s) ∧ (Usable s → q)) r.1 Q := fun classes =>
    (settles_bind.trans (settles_congr (h classes))).trans settles_codeEntries
  refine ((settles_bind.trans (settles_congr hentries)).trans settles_errorClasses).trans ?_
  rw [codesAre_twice, CodesRead, ← settles_errorCodes, ← settles_errorCodes]
  refine settles_congr fun r => and_congr_right fun hcodes => inTurn_usable fun code hcode => ?_
  rcases hcodes code hcode with ⟨s, htext, _⟩
  exact ⟨s, htext⟩

/-! ### Methods -/

/-- A parameter is where what it refers to is. -/
theorem located_ref {parameters : Value N} {location name : Str} {entries : List (Scalar × N)}
    (href : under doc (text "$ref") entries = some (.scalar (.text (parameterPrefix ++ name)))) :
    Located doc parameters location (.map entries) ↔ ∃ all target, parameters = .map all ∧
      under doc name all = some target ∧ Located doc parameters location target := by
  constructor
  · intro h
    cases h with
    | here hnone _ =>
        rw [href] at hnone
        cases hnone
    | there href' hall htarget hlocated =>
        rw [href, Option.some.injEq, Value.scalar.injEq, Scalar.text.injEq,
          List.append_cancel_left_eq] at href'
        subst href'
        exact ⟨_, _, hall, htarget, hlocated⟩
  · rintro ⟨all, target, hall, htarget, hlocated⟩
    exact Located.there href hall htarget hlocated

/-- A parameter that refers to nothing is where it says. -/
theorem located_in {parameters : Value N} {location : Str} {entries : List (Scalar × N)}
    (href : under doc (text "$ref") entries = none) :
    Located doc parameters location (.map entries) ↔
      under doc (text "in") entries = some (.scalar (.text location)) := by
  constructor
  · intro h
    cases h with
    | here _ hin => exact hin
    | there href' _ _ _ =>
        rw [href] at href'
        cases href'
  · exact Located.here href

/-- What is found of a parameter is where it is declared to be. -/
theorem location_of_parameter {parameters : Value N} {frames : Nat} {node : Value N} {place : Str}
    {p : Parameter} (h : parameter doc b frames node parameters schemas place = .ok p)
    (location : Str) : p.location = location ↔ Located doc parameters location node := by
  induction frames generalizing node with
  | zero => cases h
  | succ frames ih =>
      rw [parameter, bind_eq_ok] at h
      rcases h with ⟨found, hfound, h⟩
      cases found with
      | true =>
          rw [if_pos rfl, bind_eq_ok] at h
          rcases h with ⟨name, hname, h⟩
          rcases referenceName_eq_ok.mp hname with ⟨entries, rfl, href⟩
          rcases bind_eq_ok.mp h with ⟨declared, _, h⟩
          cases declared with
          | false => cases h
          | true =>
              rw [if_pos rfl, bind_eq_ok] at h
              rcases h with ⟨target, htarget, h⟩
              rcases item_eq_ok.mp htarget with ⟨all, rfl, hunder⟩
              rw [ih h, located_ref href]
              simp only [Value.map.injEq, ↓existsAndEq, true_and, hunder, Option.some.injEq,
                exists_eq_left']
      | false =>
          rw [if_neg Bool.false_ne_true, bind_eq_ok] at h
          rcases h with ⟨at', hat, h⟩
          rcases item_eq_ok.mp hat with ⟨entries, rfl, hin⟩
          have href : under doc (text "$ref") entries = none := by
            rw [← Option.isNone_iff_eq_none, ← Option.isSome_eq_false_iff, ← isSome_find]
            exact Except.ok.inj hfound
          rw [located_in href, hin]
          -- Of the places a parameter may be in, the reader takes two.
          split at h
          · rename_i hplace
            rcases bind_eq_ok.mp h with ⟨schema, _, h⟩
            rcases bind_eq_ok.mp h with ⟨name, _, h⟩
            rcases bind_eq_ok.mp h with ⟨r, _, h⟩
            rcases bind_eq_ok.mp h with ⟨required, _, h⟩
            cases h
            rw [isText_iff, isText_iff] at hplace
            rcases hplace with rfl | rfl <;>
              simp only [Builtins.str, Option.some.injEq, Value.scalar.injEq, Scalar.text.injEq]
          · cases h

theorem settles_jsonDumps {Q : Prop} {path : Scalar} :
    Settles (fun _ => Q) (jsonDumps path) ↔ Dumpable path ∧ Q := by
  cases path with
  | bytes | date => exact ⟨False.elim, fun h => h.1.elim⟩
  | bool b => cases b <;> exact ⟨fun h => ⟨trivial, h⟩, And.right⟩
  | _ => exact ⟨fun h => ⟨trivial, h⟩, And.right⟩

/-- What an operation means can be written out, and its path. -/
def Written (b : Builtins N) (operation : Operation N) : Prop :=
  Textable (some (.scalar (.text (meaning b operation))) : Option (Value N)) ∧
    (operation.pathParameters ≠ [] → ∃ s, operation.path = .text s) ∧
    (operation.pathParameters = [] → Dumpable operation.path)

theorem settles_methodSource {Q : Prop} {operation : Operation N} :
    Settles (fun _ => Q) (methodSource b operation) ↔ Written b operation ∧ Q := by
  unfold methodSource Written
  rw [and_assoc]
  refine (settles_bind_of_const fun described => ?_).trans settles_textLines
  rw [settles_bind_of_const fun _ => settles_pure]
  unfold pathExpression
  by_cases hpath : operation.pathParameters = []
  · rw [if_pos hpath, settles_jsonDumps]
    simp only [hpath, ne_eq, not_true, false_implies, true_implies, true_and]
  · rw [if_neg hpath]
    simp only [hpath, ne_eq, not_false_eq_true, false_implies, true_implies, and_true]
    cases operation.path with
    | text s => exact ⟨fun h => ⟨⟨s, rfl⟩, h⟩, And.right⟩
    | _ => exact ⟨False.elim, fun ⟨⟨_, h⟩, _⟩ => absurd h nofun⟩

/-- What an operation is read as is what it is declared as. -/
theorem exists_of_operation {frames : Nat} {declared parameters responses : Value N}
    {method : Str} {path : Scalar} {place : Str} {op : Operation N}
    (h : operation doc b frames declared method path schemas parameters responses place =
      .ok op) :
    ∃ entries, declared = .map entries ∧ op.path = path ∧
      meaning b op = meaningOf doc b entries ∧
      (op.pathParameters ≠ [] ↔ PathUsed doc parameters entries) := by
  unfold operation at h
  rcases bind_eq_ok.mp h with ⟨found, hfound, h⟩
  rcases get_eq_ok.mp hfound with ⟨entries, rfl, rfl⟩
  refine ⟨entries, rfl, ?_⟩
  cases hid : under doc (text "operationId") entries with
  | none =>
      rw [hid] at h
      cases h
  | some operationId =>
      rw [hid] at h
      simp only [] at h
      split at h
      · cases h
      -- The parameters come from one list, read once for each of the two places.
      rw [get_map, ok_bind] at h
      rcases bind_eq_ok.mp h with ⟨nodes, hnodes, h⟩
      rcases bind_eq_ok.mp h with ⟨read, hread, h⟩
      rcases bind_eq_ok.mp h with ⟨_, _, h⟩
      rcases bind_eq_ok.mp h with ⟨_, _, h⟩
      rcases bind_eq_ok.mp h with ⟨answers, _, h⟩
      rcases bind_eq_ok.mp h with ⟨success, _, h⟩
      rcases bind_eq_ok.mp h with ⟨body, _, h⟩
      rcases bind_eq_ok.mp h with ⟨answer, _, h⟩
      rcases bind_eq_ok.mp h with ⟨response, _, h⟩
      rcases bind_eq_ok.mp h with ⟨schema, _, h⟩
      rw [get_map, ok_bind, get_map, ok_bind] at h
      rcases bind_eq_ok.mp h with ⟨returned, _, h⟩
      cases h
      refine ⟨rfl, ?_, ?_⟩
      · unfold meaning meaningOf
        rw [hid]
        cases under doc (text "description") entries <;> rfl
      · rw [ne_eq, List.filter_eq_nil_iff]
        simp only [decide_eq_true_eq, not_forall, exists_prop, not_not]
        rw [← exists_mem_mapM hread fun node p hp => (location_of_parameter hp _).symm]
        simp only [PathUsed, iterate_eq_ok.mp hnodes, Option.some.injEq, exists_eq_left']

theorem methodRead_iff {frames : Nat} {declared parameters responses : Value N} {method : Str}
    {path : Scalar} {place : Str} {op : Operation N}
    (h : operation doc b frames declared method path schemas parameters responses place =
      .ok op) :
    (∃ entries, declared = .map entries ∧ MethodRead doc b parameters path entries) ↔
      Written b op := by
  rcases exists_of_operation h with ⟨entries, rfl, hpath, hmeaning, hused⟩
  simp only [Value.map.injEq, exists_eq_left', MethodRead, Written, hpath, hmeaning, ← hused,
    ne_eq, not_not]

/-- What is asked of the methods is asked of the operations as they are declared. -/
theorem methodsRead_iff {frames : Nat} {document : Value N} {ops : List (Operation N)}
    (h : operations doc b frames document = .ok ops) :
    MethodsRead doc b document ↔ ∀ op ∈ ops, Written b op := by
  unfold operations at h
  rcases bind_eq_ok.mp h with ⟨components, hcomponents, h⟩
  rcases bind_eq_ok.mp h with ⟨schemas, hschemas, h⟩
  rcases item_eq_ok.mp hcomponents with ⟨top, rfl, htop⟩
  rcases item_eq_ok.mp hschemas with ⟨fields, rfl, _⟩
  rw [get_map, ok_bind, get_map, ok_bind] at h
  rcases bind_eq_ok.mp h with ⟨item, hitem, h⟩
  rcases bind_eq_ok.mp h with ⟨paths, hpaths, h⟩
  rcases bind_eq_ok.mp h with ⟨found, hfound, h⟩
  cases h
  rcases item_eq_ok.mp hitem with ⟨_, heq, hunder⟩
  cases heq
  rw [entriesOf_eq_ok] at hpaths
  subst hpaths
  -- The paths that are read are those the document has under their name.
  simp only [MethodsRead, At, Value.map.injEq, ↓existsAndEq, true_and, htop, hunder,
    Option.some.injEq, exists_eq_left', List.forall_mem_flatten]
  refine forall_mem_mapM hfound fun path ops hops => ?_
  unfold pathOperations at hops
  rcases bind_eq_ok.mp hops with ⟨methods, hmethods, hops⟩
  rw [entriesOf_eq_ok] at hmethods
  simp only [hmethods, Value.map.injEq, exists_eq_left']
  refine forall_mem_mapM hops fun method op hop => ?_
  rcases method with ⟨key, node⟩
  cases key with
  | text name =>
      simp only [] at hop
      split at hop
      · exact methodRead_iff hop
      · cases hop
  | _ => cases hop

/-! ### Whole documents -/

theorem settles_clientSource {Q : Prop} {fixed : Fixed} {frames : Nat} {document : Value N} :
    Settles (fun _ => Q) (clientSource doc b fixed frames document) ↔
      OperationsRead doc b frames document
        (CodesRead doc document (MethodsRead doc b document ∧ Q)) := by
  unfold clientSource
  rw [← settles_operations, settles_bind]
  refine settles_congr_of_ok fun ops hops => ?_
  refine settles_codes fun classes entries => ?_
  rw [settles_bind_of_const fun _ => settles_pure, settles_mapM, methodsRead_iff hops,
    ← inTurn_and]
  exact inTurn_congr fun op _ q => settles_methodSource

/-- Both modules of a document are made, or it is refused, exactly if it is read. -/
theorem settles_sources {Q : Prop} {fixed : Fixed} {frames : Nat} {document : Value N} :
    Settles (fun _ => Q) (sources doc b fixed frames document) ↔
      SourcesRead doc b frames document Q := by
  unfold sources SourcesRead
  refine (settles_bind_of_const fun models => ?_).trans
    (settles_modelsSource.trans settles_schemasOf)
  rw [settles_bind_of_const fun _ => settles_pure, settles_clientSource]

end Operations

end Codegen

end ClaimTriage
