import ClaimTriage.Codegen.Frames
import Mathlib.Logic.Relation

/-!
# Keywords

What becomes of the keywords of a contract's schemas.

A field is constrained by the keywords of its own schema and by those of the
primitives that one refers to. The generator follows the references to a schema
without one and asks that schema only, so a keyword beside a reference is lost
unless it is said again where the references end, and nobody asks whether it is
one the generator reads.

## Main definitions

* `LeadsTo`, `Applies`: The schemas whose keywords apply to a field.
* `FieldOf`, `FieldKept`, `FieldsKept`: Every constraint is an argument of its field.
* `Step`, `Reaches`, `parts`, `IsSchema`: The schemas of a document, wherever they
  stand.
* `IsAsked`: A schema is asked for its keywords.
* `Stray`, `PassedOver`: A schema has a keyword that the generator does not read, and
  is not asked for it.
* `NothingDropped`: No keyword is passed over in silence.
* `SaidAgain`: What stands beside a reference stands at its end too.

## Theorems

* `mem_annotation_iff`: A field is constrained by what its references end in.
* `supported_of_sources`: The schemas that are asked have the keywords the
  generator reads.
* `fieldsKept_iff`, `strayRefused_iff`: When no constraint is lost, and when no keyword
  is passed over.
* `nothingDropped_iff`: When nothing is dropped.
-/

namespace ClaimTriage

namespace Codegen

open Theory Text Numeral Failing Yaml

/-! ### What applies to a field -/

section Conditions

variable {N : Type} (doc : N → Value N) (b : Builtins N)

/-- A schema refers to a primitive. -/
def LeadsTo (schemas : Value N) (schema target : List (Scalar × N)) : Prop :=
  ∃ name all, under doc (text "$ref") schema = some (.scalar (.text (schemaPrefix ++ name))) ∧
    schemas = .map all ∧ under doc name all = some (.map target) ∧ ¬ IsClass doc target

/-- The keywords of a schema apply to a field: it is the field's own, or one that is
    referred to from there through any number of others. -/
abbrev Applies (schemas : Value N) (own schema : List (Scalar × N)) : Prop :=
  Relation.ReflTransGen (LeadsTo doc schemas) own schema

/-- The references end in a schema without one. -/
def EndsIn (schemas : Value N) (own last : List (Scalar × N)) : Prop :=
  Applies doc schemas own last ∧ under doc (text "$ref") last = none

/-- A property of an object schema, with the name of the schema. -/
def FieldOf (schemas : Value N) (named : Scalar) (property : Scalar × N) : Prop :=
  ∃ all node entries properties, schemas = .map all ∧ (named, node) ∈ all ∧
    doc node = .map entries ∧ IsObject doc entries ∧
    under doc (text "properties") entries = some (.map properties) ∧ property ∈ properties

/-- A field is written down with every constraint that applies to it among its arguments. -/
def FieldKept (frames : Nat) (schemas : Value N) (named : Scalar) (property : Scalar × N)
    (source : Str) : Prop :=
  ∃ required f, field doc b frames property.1 (doc property.2) schemas required
      (b.str (.scalar named) ++ text "." ++ b.str (.scalar property.1)) = .ok f ∧
    f.line <:+: source ∧
    ∀ own schema, doc property.2 = .map own → Applies doc schemas own schema →
      ∀ asked ∈ constraintsOf doc b schema, asked ∈ f.arguments

/-- Every field of the models that are made is. -/
def FieldsKept (header : Str) (frames : Nat) (document : Value N) : Prop :=
  ∀ source schemas, modelsSource doc b header frames document = .ok source →
    schemasOf doc document = .ok schemas →
    ∀ named property, FieldOf doc schemas named property →
      FieldKept doc b frames schemas named property source

/-- Where a schema is annotated, another is asked for its keywords: itself, the primitive it
    refers to, or what it is an array of. -/
inductive Asked (schemas : Value N) : List (Scalar × N) → List (Scalar × N) → Prop where
  | own {schema : List (Scalar × N)} (href : under doc (text "$ref") schema = none) :
      Asked schemas schema schema
  | target {own target schema : List (Scalar × N)} (hleads : LeadsTo doc schemas own target)
      (hasked : Asked schemas target schema) : Asked schemas own schema
  | items {own items schema : List (Scalar × N)} (href : under doc (text "$ref") own = none)
      (henum : under doc (text "enum") own = none) (htype : TypeIs doc (text "array") own)
      (hitems : under doc (text "items") own = some (.map items))
      (hasked : Asked schemas items schema) : Asked schemas own schema

/-- A parameter is of a schema, there or where it refers to. -/
inductive TypedBy (parameters : Value N) : Value N → Value N → Prop where
  | here {entries : List (Scalar × N)} {schema : Value N}
      (href : under doc (text "$ref") entries = none)
      (hschema : under doc (text "schema") entries = some schema) :
      TypedBy parameters (.map entries) schema
  | there {entries all : List (Scalar × N)} {name : Str} {target schema : Value N}
      (href : under doc (text "$ref") entries =
        some (.scalar (.text (parameterPrefix ++ name))))
      (hall : parameters = .map all) (htarget : under doc name all = some target)
      (htyped : TypedBy parameters target schema) : TypedBy parameters (.map entries) schema

/-- The parameters of a document, by their names. -/
def ParametersAre (document parameters : Value N) : Prop :=
  At doc (text "components") document fun components => ∃ fields, components = .map fields ∧
    parameters = (under doc (text "parameters") fields).getD (.map [])

/-- What is gone down into: what is under a key, under any key, or any item. -/
inductive Step where
  | key (name : Str)
  | any
  | each

/-- A value is reached from another in some steps. -/
inductive Reaches : List Step → Value N → Value N → Prop where
  | here {v : Value N} : Reaches [] v v
  | key {name : Str} {rest : List Step} {entries : List (Scalar × N)} {v w : Value N}
      (hunder : under doc name entries = some v) (hrest : Reaches rest v w) :
      Reaches (.key name :: rest) (.map entries) w
  | any {rest : List Step} {entries : List (Scalar × N)} {entry : Scalar × N} {w : Value N}
      (hentry : entry ∈ entries) (hrest : Reaches rest (doc entry.2) w) :
      Reaches (.any :: rest) (.map entries) w
  | each {rest : List Step} {items : List N} {item : N} {w : Value N} (hitem : item ∈ items)
      (hrest : Reaches rest (doc item) w) : Reaches (.each :: rest) (.seq items) w

/-- Where the schemas with a name are. -/
def namedPlace : List Step :=
  [.key (text "components"), .key (text "schemas"), .any]

/-- Where an operation has its parameters. -/
def parameterPlace : List Step :=
  [.key (text "paths"), .any, .any, .key (text "parameters"), .each]

/-- What a document has parts of. A header is described as a parameter is. -/
inductive Kind where
  | document
  | pathItem
  | operation
  | parameter
  | requestBody
  | response
  | mediaType
  | schema

/-- Where a part of one kind has parts of another. -/
def parts : List (Kind × List Step × Kind) :=
  [(.document, namedPlace, .schema),
    (.document, [.key (text "components"), .key (text "parameters"), .any], .parameter),
    (.document, [.key (text "components"), .key (text "headers"), .any], .parameter),
    (.document, [.key (text "components"), .key (text "requestBodies"), .any], .requestBody),
    (.document, [.key (text "components"), .key (text "responses"), .any], .response),
    (.document, [.key (text "components"), .key (text "callbacks"), .any, .any], .pathItem),
    (.document, [.key (text "components"), .key (text "pathItems"), .any], .pathItem),
    (.document, [.key (text "paths"), .any], .pathItem),
    (.document, [.key (text "webhooks"), .any], .pathItem),
    (.pathItem, [.key (text "parameters"), .each], .parameter),
    (.pathItem, [.any], .operation),
    (.operation, [.key (text "parameters"), .each], .parameter),
    (.operation, [.key (text "requestBody")], .requestBody),
    (.operation, [.key (text "responses"), .any], .response),
    (.operation, [.key (text "callbacks"), .any, .any], .pathItem),
    (.parameter, [.key (text "schema")], .schema),
    (.parameter, [.key (text "content"), .any], .mediaType),
    (.requestBody, [.key (text "content"), .any], .mediaType),
    (.response, [.key (text "content"), .any], .mediaType),
    (.response, [.key (text "headers"), .any], .parameter),
    (.mediaType, [.key (text "schema")], .schema),
    (.mediaType, [.key (text "encoding"), .any, .key (text "headers"), .any], .parameter),
    (.schema, [.key (text "properties"), .any], .schema),
    (.schema, [.key (text "items")], .schema),
    (.schema, [.key (text "additionalProperties")], .schema)]

/-- A part of a document, or of a part of it. -/
inductive IsPart (document : Value N) : Kind → Value N → Prop where
  | document : IsPart document .document document
  | part {kind inner : Kind} {place : List Step} {v w : Value N} (hpart : IsPart document kind v)
      (hplace : (kind, place, inner) ∈ parts) (hreaches : Reaches doc place v w) :
      IsPart document inner w

/-- A schema of a document, or of a schema of it. -/
def IsSchema (document schema : Value N) : Prop :=
  IsPart doc document .schema schema

/-- A schema of a document is asked for its keywords: it has a name, or a field or a
    parameter is annotated by it. -/
def IsAsked (document : Value N) (schema : List (Scalar × N)) : Prop :=
  Reaches doc namedPlace document (.map schema) ∨
    ∃ schemas own, schemasOf doc document = .ok schemas ∧ Asked doc schemas own schema ∧
      ((∃ named property, FieldOf doc schemas named property ∧ doc property.2 = .map own) ∨
        ∃ parameters node, ParametersAre doc document parameters ∧
          Reaches doc parameterPlace document node ∧ TypedBy doc parameters node (.map own))

/-- Some schema of a document has a keyword that the generator does not read. -/
def Stray (document : Value N) : Prop :=
  ∃ entries entry, IsSchema doc document (.map entries) ∧ entry ∈ entries ∧ ¬ Supported entry.1

/-- And it is one that is not asked for its keywords. -/
def PassedOver (document : Value N) : Prop :=
  ∃ entries entry, IsSchema doc document (.map entries) ∧ ¬ IsAsked doc document entries ∧
    entry ∈ entries ∧ ¬ Supported entry.1

/-- No part of a schema is dropped in silence: the constraints of every field are written
    down, and a keyword the generator does not read is refused. -/
def NothingDropped (fixed : Fixed) (frames : Nat) (document : Value N) : Prop :=
  FieldsKept doc b fixed.modelsHeader frames document ∧
    (Stray doc document → ∃ message, sources doc b fixed frames document =
      .error (.refused message))

/-- The models of a document are made: all its schemas are read, and none is refused. -/
def ModelsAccepted (frames : Nat) (document : Value N) : Prop :=
  At doc (text "components") document fun components =>
    At doc (text "schemas") components fun schemas =>
      ModelsRead doc schemas frames True ∧ ¬ ModelsRead doc schemas frames False

/-- What constrains a field beside a reference constrains it where the references end too. -/
def SaidAgain (document : Value N) : Prop :=
  ∀ schemas named property own schema, schemasOf doc document = .ok schemas →
    FieldOf doc schemas named property → doc property.2 = .map own →
    Applies doc schemas own schema → (under doc (text "$ref") schema).isSome →
    ∀ asked ∈ constraintsOf doc b schema,
      ∃ last, EndsIn doc schemas own last ∧ asked ∈ constraintsOf doc b last

end Conditions

section Models

variable {N : Type} {doc : N → Value N} {b : Builtins N} {schemas : Value N}

/-! ### The end of the references -/

theorem LeadsTo.eq {schema target other : List (Scalar × N)} (h : LeadsTo doc schemas schema target)
    (hother : LeadsTo doc schemas schema other) : target = other := by
  rcases h with ⟨name, all, href, rfl, hunder, _⟩
  rcases hother with ⟨name', all', href', hall, hunder', _⟩
  cases hall
  rw [href] at href'
  simp only [Option.some.injEq, Value.scalar.injEq, Scalar.text.injEq,
    List.append_cancel_left_eq] at href'
  rw [← href', hunder] at hunder'
  cases hunder'
  rfl

/-- A schema without a reference is the end of its own. -/
theorem endsIn_of_none {own last : List (Scalar × N)} (href : under doc (text "$ref") own = none) :
    EndsIn doc schemas own last ↔ last = own := by
  constructor
  · rintro ⟨happlies, _⟩
    rcases happlies.cases_head with heq | ⟨_, ⟨name, _, hsome, _⟩, _⟩
    · exact heq.symm
    · rw [href] at hsome
      cases hsome
  · rintro rfl
    exact ⟨Relation.ReflTransGen.refl, href⟩

/-- The references of a schema end where those of the one it leads to do. -/
theorem endsIn_of_leadsTo {own target last : List (Scalar × N)}
    (h : LeadsTo doc schemas own target) :
    EndsIn doc schemas own last ↔ EndsIn doc schemas target last := by
  constructor
  · rintro ⟨happlies, hnone⟩
    rcases happlies.cases_head with rfl | ⟨next, hnext, hrest⟩
    · rcases h with ⟨name, _, hsome, _⟩
      rw [hnone] at hsome
      cases hsome
    · exact ⟨(h.eq hnext) ▸ hrest, hnone⟩
  · exact fun ⟨happlies, hnone⟩ => ⟨happlies.head h, hnone⟩

/-- Keywords that are read and not refused are all ones the generator reads. -/
theorem supported_of_keysRead {entries : List (Scalar × N)} {Q Q' : Prop}
    (h : KeysRead entries Q) (hnot : ¬ KeysRead entries Q') :
    ∀ entry ∈ entries, Supported entry.1 := by
  by_contra hstray
  exact hnot ⟨h.1, fun hall => absurd hall hstray⟩

theorem supported_of_checkSupported {entries : List (Scalar × N)} {place : Str} {r : Unit}
    (h : checkSupported doc (.map entries) place = .ok r) :
    ∀ entry ∈ entries, Supported entry.1 := by
  have hread : KeysRead entries True := by
    rw [← settles_checkSupported doc place, h]
    trivial
  have hnot : ¬ KeysRead entries False := by
    rw [← settles_checkSupported doc place]
    exact settles_false_of_eq_ok h
  exact supported_of_keysRead hread hnot

theorem constraints_eq_ok {entries : List (Scalar × N)} {place : Str} {l : List Str}
    (h : constraints doc b (.map entries) place = .ok l) :
    l = constraintsOf doc b entries ∧ ∀ entry ∈ entries, Supported entry.1 := by
  rw [constraints_map] at h
  rcases bind_eq_ok.mp h with ⟨_, hchecked, hl⟩
  exact ⟨(Except.ok.inj hl).symm, supported_of_checkSupported hchecked⟩

theorem annotated_eq_ok {entries : List (Scalar × N)} {annotated place : Str} {r : Str × List Str}
    (h : (do return (annotated, ← constraints doc b (.map entries) place)) = .ok r) :
    r.2 = constraintsOf doc b entries ∧ ∀ entry ∈ entries, Supported entry.1 := by
  rcases bind_eq_ok.mp h with ⟨l, hl, hr⟩
  cases hr
  exact constraints_eq_ok hl

/-- A schema without a reference is asked for its own keywords. -/
theorem of_annotation_of_none {frames : Nat} {own : List (Scalar × N)} {place : Str}
    {r : Str × List Str} (href : under doc (text "$ref") own = none)
    (h : annotationOf doc b frames (.map own) schemas place = .ok r) :
    r.2 = constraintsOf doc b own ∧ ∀ entry ∈ own, Supported entry.1 := by
  cases frames with
  | zero => cases h
  | succ frames =>
      rw [annotationOf, contains_map, ok_bind, isSome_find doc, href] at h
      simp only [Option.isSome_none, Bool.false_eq_true, if_false] at h
      rw [contains_map, ok_bind] at h
      -- An enumeration, an array and a primitive each ask for their keywords, and an untyped schema
      -- does so before its constraints are read.
      split at h
      · rcases bind_eq_ok.mp h with ⟨values, _, h⟩
        rcases bind_eq_ok.mp h with ⟨annotated, _, h⟩
        exact annotated_eq_ok h
      · rw [get_map, ok_bind] at h
        split at h
        · rcases bind_eq_ok.mp h with ⟨items, _, h⟩
          rcases bind_eq_ok.mp h with ⟨⟨name, itemConstraints⟩, _, h⟩
          simp only [] at h
          split at h
          · cases h
          · exact annotated_eq_ok h
        · split at h
          · rcases bind_eq_ok.mp h with ⟨annotated, _, h⟩
            exact annotated_eq_ok h
          · split at h
            · exact annotated_eq_ok h
            · cases h

/-- What an array is of is annotated before the array is. -/
theorem items_of_annotationOf {frames : Nat} {own : List (Scalar × N)} {items : Value N}
    {place : Str} {r : Str × List Str} (href : under doc (text "$ref") own = none)
    (henum : under doc (text "enum") own = none) (htype : TypeIs doc (text "array") own)
    (hitems : under doc (text "items") own = some items)
    (h : annotationOf doc b (frames + 1) (.map own) schemas place = .ok r) :
    ∃ r', annotationOf doc b frames items schemas (place ++ text "[]") = .ok r' := by
  rw [annotationOf, contains_map, ok_bind, isSome_find doc, href] at h
  simp only [Option.isSome_none, Bool.false_eq_true, if_false] at h
  rw [contains_map, ok_bind, isSome_find doc, henum] at h
  simp only [Option.isSome_none, Bool.false_eq_true, if_false] at h
  rw [get_map, ok_bind, if_pos (typeIs_iff.mp htype), item_map hitems, ok_bind] at h
  rcases bind_eq_ok.mp h with ⟨r', hr', _⟩
  exact ⟨r', hr'⟩

/-- A schema with a reference is asked for nothing: its annotation is a class, or that of
    the primitive it leads to. -/
theorem of_annotation_of_some {frames : Nat} {own : List (Scalar × N)} {reference : Value N}
    {place : Str} {r : Str × List Str} (href : under doc (text "$ref") own = some reference)
    (h : annotationOf doc b (frames + 1) (.map own) schemas place = .ok r) :
    (r.2 = [] ∧ ∀ target, ¬ LeadsTo doc schemas own target) ∨
      ∃ target name, LeadsTo doc schemas own target ∧
        annotationOf doc b frames (.map target) schemas name = .ok r := by
  rw [annotationOf, contains_map, ok_bind, isSome_find doc, href] at h
  simp only [Option.isSome_some, if_true] at h
  rcases bind_eq_ok.mp h with ⟨name, hname, h⟩
  rcases bind_eq_ok.mp h with ⟨v, hv, h⟩
  rcases bind_eq_ok.mp h with ⟨found, hfound, h⟩
  rcases referenceName_eq_ok.mp hname with ⟨_, heq, hreference⟩
  cases heq
  rcases item_eq_ok.mp hv with ⟨all, rfl, hunder⟩
  have hclass : ∃ target, v = .map target ∧ found = decide (IsClass doc target) := by
    refine (settles_isClass (P := fun a => found = a)).mp ?_
    rw [hfound]
    exact rfl
  rcases hclass with ⟨target, rfl, rfl⟩
  by_cases htarget : IsClass doc target
  · rw [if_pos (decide_eq_true htarget)] at h
    cases h
    -- A class is where the references stop: the constraints it would have are its own.
    refine Or.inl ⟨rfl, ?_⟩
    rintro other ⟨name', _, href', hall, hunder', hnot⟩
    -- A name refers to one schema only.
    cases hall
    rw [hreference] at href'
    simp only [Option.some.injEq, Value.scalar.injEq, Scalar.text.injEq,
      List.append_cancel_left_eq] at href'
    rw [← href', hunder] at hunder'
    cases hunder'
    exact hnot htarget
  · rw [if_neg (by rwa [decide_eq_true_eq])] at h
    exact Or.inr ⟨target, name, ⟨name, all, hreference, rfl, hunder, htarget⟩, h⟩

/-- A field is constrained by what its references end in, and by nothing else. -/
theorem mem_annotation_iff {frames : Nat} {own : List (Scalar × N)} {place asked : Str}
    {r : Str × List Str} (h : annotationOf doc b frames (.map own) schemas place = .ok r) :
    asked ∈ r.2 ↔ ∃ last, EndsIn doc schemas own last ∧ asked ∈ constraintsOf doc b last := by
  induction frames generalizing own place with
  | zero => cases h
  | succ frames ih =>
      cases href : under doc (text "$ref") own with
      | none =>
          rw [(of_annotation_of_none href h).1]
          simp only [endsIn_of_none href, exists_eq_left]
      | some reference =>
          rcases of_annotation_of_some href h with ⟨hnil, hnone⟩ | ⟨target, name, hleads, hrest⟩
          · rw [hnil]
            -- Nothing is asked at a class, so no chain of references from here ends in a primitive.
            refine ⟨fun hmem => absurd hmem List.not_mem_nil, ?_⟩
            rintro ⟨last, ⟨happlies, hlast⟩, _⟩
            rcases happlies.cases_head with rfl | ⟨target, hleads, _⟩
            · rw [href] at hlast
              cases hlast
            · exact absurd hleads (hnone target)
          · simp only [ih hrest, endsIn_of_leadsTo hleads]

/-- A schema that is asked for its keywords where an annotation is found has the ones the
    generator reads. -/
theorem supported_of_asked {own schema : List (Scalar × N)} (hasked : Asked doc schemas own schema)
    {frames : Nat} {place : Str} {r : Str × List Str}
    (h : annotationOf doc b frames (.map own) schemas place = .ok r) :
    ∀ entry ∈ schema, Supported entry.1 := by
  induction hasked generalizing frames place r with
  -- What a reference leads to is asked where the annotation goes on to it.
  | own href => exact (of_annotation_of_none href h).2
  | target hleads _ ih =>
      cases frames with
      | zero => cases h
      | succ frames =>
          have href := hleads
          rcases href with ⟨_, _, href, _⟩
          rcases of_annotation_of_some href h with ⟨_, hnone⟩ | ⟨target, name, hnext, hrest⟩
          · exact absurd hleads (hnone _)
          · rw [← hleads.eq hnext] at hrest
            exact ih hrest
  | items href henum htype hitems _ ih =>
      cases frames with
      | zero => cases h
      | succ frames =>
          rcases items_of_annotationOf href henum htype hitems h with ⟨r', hr'⟩
          exact ih hr'

/-! ### Fields -/

/-- A field's arguments are what constrains it, behind a default where it may be left out. -/
theorem exists_of_field {frames : Nat} {name : Scalar} {schema : Value N} {required : Bool}
    {place : Str} {f : Field} (h : field doc b frames name schema schemas required place = .ok f) :
    ∃ r, annotationOf doc b frames schema schemas place = .ok r ∧
      f.arguments = if required then r.2 else text "default=None" :: r.2 := by
  unfold field at h
  rcases bind_eq_ok.mp h with ⟨⟨annotated, constraints⟩, hr, h⟩
  simp only [] at h
  rcases bind_eq_ok.mp h with ⟨own, _, h⟩
  split at h
  · rcases bind_eq_ok.mp h with ⟨described, _, h⟩
    rcases bind_eq_ok.mp h with ⟨comments, _, h⟩
    cases h
    exact ⟨_, hr, rfl⟩
  · rcases bind_eq_ok.mp h with ⟨described, _, h⟩
    rcases bind_eq_ok.mp h with ⟨comments, _, h⟩
    cases h
    exact ⟨_, hr, rfl⟩

/-- A constraint is not taken for a default. -/
theorem ne_default_of_mem {schema : List (Scalar × N)} {asked : Str}
    (h : asked ∈ constraintsOf doc b schema) : asked ≠ text "default=None" := by
  rintro rfl
  rcases List.mem_append.mp h with hmem | hmem
  · rcases List.mem_filterMap.mp hmem with ⟨keyword, hkeyword, hsome⟩
    rcases Option.map_eq_some_iff.mp hsome with ⟨v, _, hv⟩
    -- No argument begins as the default does.
    have hnone : ∀ keyword ∈ constraintKeywords,
        (keyword.2 ++ text "=").take 3 ≠ (text "default=None").take 3 ∧
          3 ≤ (keyword.2 ++ text "=").length := by
      decide +kernel
    have htake := congrArg (List.take 3) hv
    -- The first three characters of a keyword already tell it from the default.
    rw [argument, List.take_append_of_le_length (hnone keyword hkeyword).2] at htake
    exact (hnone keyword hkeyword).1 htake
  · rcases Option.mem_toList.mp hmem with hsome
    rcases Option.map_eq_some_iff.mp hsome with ⟨v, _, hv⟩
    have hhead := congrArg List.head? hv
    revert hhead
    exact nofun

theorem mem_arguments_iff {frames : Nat} {name : Scalar} {own schema : List (Scalar × N)}
    {required : Bool} {place asked : Str} {f : Field}
    (h : field doc b frames name (.map own) schemas required place = .ok f)
    (hasked : asked ∈ constraintsOf doc b schema) :
    asked ∈ f.arguments ↔
      ∃ last, EndsIn doc schemas own last ∧ asked ∈ constraintsOf doc b last := by
  rcases exists_of_field h with ⟨r, hr, harguments⟩
  rw [← mem_annotation_iff hr, harguments]
  cases required with
  | true => rfl
  | false =>
      rw [if_neg Bool.false_ne_true, List.mem_cons]
      exact or_iff_right (ne_default_of_mem hasked)

/-! ### Models -/

theorem infix_joined {separator part : Str} {parts : List Str} (h : part ∈ parts) :
    part <:+: joined separator parts := by
  unfold joined
  induction parts with
  | nil => exact absurd h List.not_mem_nil
  | cons first rest ih =>
      by_cases hrest : rest = []
      · rw [hrest, List.mem_singleton] at h
        refine ⟨[], [], ?_⟩
        rw [List.nil_append, List.append_nil, hrest, List.intercalate_singleton, h]
      · rw [List.intercalate_cons_of_ne_nil hrest]
        rcases List.mem_cons.mp h with rfl | hmem
        · rw [List.append_assoc]
          exact (List.prefix_append part _).isInfix
        · exact (ih hmem).trans (List.suffix_append _ _).isInfix

/-- What an object schema is made into has a line for each of its properties. -/
theorem exists_of_modelClass {frames : Nat} {name : Scalar}
    {entries properties : List (Scalar × N)} {property : Scalar × N} {block : Str}
    (h : modelClass doc b frames name (.map entries) schemas = .ok block)
    (hproperties : under doc (text "properties") entries = some (.map properties))
    (hproperty : property ∈ properties) :
    ∃ required f, field doc b frames property.1 (doc property.2) schemas required
        (b.str (.scalar name) ++ text "." ++ b.str (.scalar property.1)) = .ok f ∧
      f.line <:+: block := by
  unfold modelClass at h
  rcases bind_eq_ok.mp h with ⟨_, _, h⟩
  rcases bind_eq_ok.mp h with ⟨others, _, h⟩
  split at h
  · rcases bind_eq_ok.mp h with ⟨requirements, _, h⟩
    rcases bind_eq_ok.mp h with ⟨required, _, h⟩
    rw [get_map, ok_bind, hproperties] at h
    simp only [Option.getD_some] at h
    split at h
    · cases h
    · rcases bind_eq_ok.mp h with ⟨description, _, h⟩
      rcases bind_eq_ok.mp h with ⟨opening, _, h⟩
      rw [entriesOf, ok_bind] at h
      rcases bind_eq_ok.mp h with ⟨fields, hfields, h⟩
      cases h
      -- One field was read of each property, and its line stands among the lines of the class.
      rcases exists_mem_of_mapM hfields hproperty with ⟨f, hf, hfield⟩
      refine ⟨_, f, hfield, infix_joined ?_⟩
      refine List.mem_cons_of_mem _ (List.mem_append_right _ (List.mem_flatMap.mpr ⟨f, hf, ?_⟩))
      exact List.mem_append_right _ List.mem_cons_self
  · cases h

theorem schemaBlock_of_isObject {frames : Nat} {name : Scalar} {entries : List (Scalar × N)}
    (h : IsObject doc entries) :
    schemaBlock doc b frames name (.map entries) schemas =
      modelClass doc b frames name (.map entries) schemas := by
  unfold schemaBlock
  rw [isEnum_map, ok_bind, isObject_map, ok_bind]
  simp only [h, not_true, and_false, decide_false, Bool.false_eq_true, if_false, decide_true,
    if_true]

/-- Every schema is made into a block of the module of models. -/
theorem exists_block_of_modelsSource {header source : Str} {frames : Nat} {document : Value N}
    {all : List (Scalar × N)} {named : Scalar} {node : N}
    (h : modelsSource doc b header frames document = .ok source)
    (hschemas : schemasOf doc document = .ok (.map all)) (hnamed : (named, node) ∈ all) :
    ∃ block, schemaBlock doc b frames named (doc node) (.map all) = .ok block ∧
      block <:+: source := by
  unfold modelsSource at h
  rw [hschemas, ok_bind, entriesOf, ok_bind] at h
  rcases bind_eq_ok.mp h with ⟨blocks, hblocks, h⟩
  cases h
  rcases exists_mem_of_mapM hblocks hnamed with ⟨block, hblock, hmade⟩
  have hblocks : joined (text "\n\n") blocks <:+:
      header ++ text "\n\n" ++ joined (text "\n\n") blocks ++ text "\n" :=
    (List.suffix_append _ _).isInfix.trans (List.prefix_append _ _).isInfix
  exact ⟨block, hmade, (infix_joined hblock).trans hblocks⟩

/-- Every field of the models is written down in their module. -/
theorem exists_of_modelsSource {header source : Str} {frames : Nat} {document : Value N}
    {named : Scalar} {property : Scalar × N}
    (h : modelsSource doc b header frames document = .ok source)
    (hschemas : schemasOf doc document = .ok schemas)
    (hfield : FieldOf doc schemas named property) :
    ∃ required f, field doc b frames property.1 (doc property.2) schemas required
        (b.str (.scalar named) ++ text "." ++ b.str (.scalar property.1)) = .ok f ∧
      f.line <:+: source := by
  rcases hfield with ⟨all, node, entries, properties, rfl, hnamed, hnode, hobject, hproperties,
    hproperty⟩
  rcases exists_block_of_modelsSource h hschemas hnamed with ⟨block, hmade, hblock⟩
  rw [hnode, schemaBlock_of_isObject hobject] at hmade
  rcases exists_of_modelClass hmade hproperties hproperty with ⟨required, f, hf, hline⟩
  exact ⟨required, f, hf, hline.trans hblock⟩

/-- A field is kept exactly if what stands beside its references is said again. -/
theorem fieldKept_iff {source : Str} {frames : Nat} {named : Scalar} {property : Scalar × N}
    (h : ∃ required f, field doc b frames property.1 (doc property.2) schemas required
        (b.str (.scalar named) ++ text "." ++ b.str (.scalar property.1)) = .ok f ∧
      f.line <:+: source) :
    FieldKept doc b frames schemas named property source ↔
      ∀ own schema, doc property.2 = .map own → Applies doc schemas own schema →
        (under doc (text "$ref") schema).isSome → ∀ asked ∈ constraintsOf doc b schema,
          ∃ last, EndsIn doc schemas own last ∧ asked ∈ constraintsOf doc b last := by
  constructor
  · rintro ⟨required, f, hf, _, hkept⟩ own schema hown happlies _ asked hasked
    rw [hown] at hf
    exact (mem_arguments_iff hf hasked).mp (hkept own schema hown happlies asked hasked)
  · intro hagain
    rcases h with ⟨required, f, hf, hline⟩
    refine ⟨required, f, hf, hline, fun own schema hown happlies asked hasked => ?_⟩
    rw [hown] at hf
    refine (mem_arguments_iff hf hasked).mpr ?_
    cases href : under doc (text "$ref") schema with
    | none => exact ⟨schema, ⟨happlies, href⟩, hasked⟩
    | some reference =>
        refine hagain own schema hown happlies ?_ asked hasked
        rw [href]
        rfl

/-! ### Schemas that are asked -/

theorem reaches_nil {v w : Value N} : Reaches doc [] v w ↔ v = w := by
  constructor
  · rintro ⟨⟩
    rfl
  · rintro rfl
    exact Reaches.here

theorem reaches_key {name : Str} {rest : List Step} {v w : Value N} :
    Reaches doc (.key name :: rest) v w ↔ At doc name v fun u => Reaches doc rest u w := by
  constructor
  · rintro (_ | ⟨hunder, hrest⟩)
    exact ⟨_, _, rfl, hunder, hrest⟩
  · rintro ⟨entries, u, rfl, hunder, hrest⟩
    exact Reaches.key hunder hrest

theorem reaches_any {rest : List Step} {v w : Value N} :
    Reaches doc (.any :: rest) v w ↔
      ∃ entries, v = .map entries ∧ ∃ entry ∈ entries, Reaches doc rest (doc entry.2) w := by
  constructor
  · rintro (_ | _ | ⟨hentry, hrest⟩)
    exact ⟨_, rfl, _, hentry, hrest⟩
  · rintro ⟨entries, rfl, entry, hentry, hrest⟩
    exact Reaches.any hentry hrest

theorem reaches_each {rest : List Step} {v w : Value N} :
    Reaches doc (.each :: rest) v w ↔
      ∃ items, v = .seq items ∧ ∃ item ∈ items, Reaches doc rest (doc item) w := by
  constructor
  · rintro (_ | _ | _ | ⟨hitem, hrest⟩)
    exact ⟨_, rfl, _, hitem, hrest⟩
  · rintro ⟨items, rfl, item, hitem, hrest⟩
    exact Reaches.each hitem hrest

theorem supported_of_blockRead {frames : Nat} {entries : List (Scalar × N)}
    (h : BlockRead doc schemas frames (.map entries) True)
    (hnot : ¬ BlockRead doc schemas frames (.map entries) False) :
    ∀ entry ∈ entries, Supported entry.1 := by
  rcases h with ⟨_, heq, hmodel, henum, hother⟩
  cases heq
  by_cases hobject : IsObject doc entries
  · -- An object is asked as a class, its properties not yet looked at.
    have hrefused : ¬ ModelRead doc schemas frames entries False := fun hread =>
      hnot ⟨entries, rfl, fun _ => hread, fun hno => absurd hobject hno,
        fun hno => absurd hobject hno⟩
    exact supported_of_keysRead (hmodel hobject) hrefused
  by_cases henumerated : (find (text "enum") entries).isSome
  · have hrefused : ¬ EnumRead doc entries False := fun hread =>
      hnot ⟨entries, rfl, fun hyes => absurd hyes hobject, fun _ _ => hread,
        fun _ hno => absurd henumerated hno⟩
    exact supported_of_keysRead (henum hobject henumerated) hrefused
  · have hrefused : ¬ KeysRead entries False := fun hread =>
      hnot ⟨entries, rfl, fun hyes => absurd hyes hobject,
        fun _ hyes => absurd hyes henumerated, fun _ _ => hread⟩
    exact supported_of_keysRead (hother hobject henumerated) hrefused

/-- Every schema with a name is asked for its keywords where it is made into a class, or into
    nothing. -/
theorem supported_of_schemaBlock {frames : Nat} {name : Scalar} {entries : List (Scalar × N)}
    {block : Str} (h : schemaBlock doc b frames name (.map entries) schemas = .ok block) :
    ∀ entry ∈ entries, Supported entry.1 := by
  have hread : BlockRead doc schemas frames (.map entries) True := by
    rw [← settles_schemaBlock, h]
    trivial
  have hnot : ¬ BlockRead doc schemas frames (.map entries) False := fun hrefused =>
    settles_false_of_eq_ok h (settles_schemaBlock.mpr hrefused)
  exact supported_of_blockRead hread hnot

theorem supported_of_named {header source : Str} {frames : Nat} {document : Value N}
    {schema : List (Scalar × N)} (h : modelsSource doc b header frames document = .ok source)
    (hreaches : Reaches doc namedPlace document (.map schema)) :
    ∀ entry ∈ schema, Supported entry.1 := by
  unfold namedPlace at hreaches
  rw [reaches_key] at hreaches
  rcases hreaches with ⟨top, components, rfl, hcomponents, hreaches⟩
  rw [reaches_key] at hreaches
  rcases hreaches with ⟨fields, schemas, rfl, hschemas, hreaches⟩
  rcases reaches_any.mp hreaches with ⟨all, rfl, entry, hentry, hreaches⟩
  rw [reaches_nil] at hreaches
  unfold modelsSource schemasOf at h
  rw [item_map hcomponents, ok_bind, item_map hschemas, ok_bind, entriesOf, ok_bind] at h
  rcases bind_eq_ok.mp h with ⟨blocks, hblocks, _⟩
  rcases exists_mem_of_mapM hblocks hentry with ⟨block, _, hblock⟩
  simp only [hreaches] at hblock
  exact supported_of_schemaBlock hblock

/-- The schema a parameter is of is annotated. -/
theorem exists_of_parameter {parameters node schema : Value N}
    (htyped : TypedBy doc parameters node schema)
    {frames : Nat} {place : Str} {p : Parameter}
    (h : parameter doc b frames node parameters schemas place = .ok p) :
    ∃ frames' place' r, annotationOf doc b frames' schema schemas place' = .ok r := by
  induction htyped generalizing frames with
  -- The induction is on how the parameter comes to its schema, each reference a frame.
  | here href hschema =>
      cases frames with
      | zero => cases h
      | succ frames =>
          rw [parameter, contains_map, ok_bind, isSome_find doc, href] at h
          simp only [Option.isSome_none, Bool.false_eq_true, if_false] at h
          rcases bind_eq_ok.mp h with ⟨location, _, h⟩
          split at h
          · rw [item_map hschema, ok_bind] at h
            rcases bind_eq_ok.mp h with ⟨name, _, h⟩
            rcases bind_eq_ok.mp h with ⟨r, hr, _⟩
            exact ⟨_, _, r, hr⟩
          · cases h
  | there href hall htarget _ ih =>
      cases frames with
      | zero => cases h
      | succ frames =>
          rw [parameter, contains_map, ok_bind, isSome_find doc, href] at h
          simp only [Option.isSome_some, if_true] at h
          rcases bind_eq_ok.mp h with ⟨name, hname, h⟩
          rcases referenceName_eq_ok.mp hname with ⟨_, heq, hreference⟩
          cases heq
          -- The name that is looked up is the one the reference spells.
          rw [href] at hreference
          simp only [Option.some.injEq, Value.scalar.injEq, Scalar.text.injEq,
            List.append_cancel_left_eq] at hreference
          rw [← hreference] at h
          rcases bind_eq_ok.mp h with ⟨declared, _, h⟩
          split at h
          · rw [hall, item_map htarget, ok_bind, ← hall] at h
            exact ih h
          · cases h

/-- Every parameter of an operation is read. -/
theorem exists_of_operation_parameter {frames : Nat} {declared : List (Scalar × N)} {items : List N}
    {item : N} {parameters responses : Value N} {method : Str} {path : Scalar} {place : Str}
    {op : Operation N}
    (hitems : under doc (text "parameters") declared = some (.seq items)) (hitem : item ∈ items)
    (h : operation doc b frames (.map declared) method path schemas parameters responses place =
      .ok op) :
    ∃ p, parameter doc b frames (doc item) parameters schemas place = .ok p := by
  unfold operation at h
  rw [get_map, ok_bind] at h
  split at h
  · cases h
  · split at h
    · cases h
    · rw [get_map, ok_bind, hitems, Option.getD_some] at h
      rcases bind_eq_ok.mp h with ⟨nodes, hnodes, h⟩
      rw [iterate_eq_ok] at hnodes
      cases hnodes
      rcases bind_eq_ok.mp h with ⟨read, hread, _⟩
      rcases exists_mem_of_mapM hread (List.mem_map_of_mem hitem) with ⟨p, _, hp⟩
      exact ⟨p, hp⟩

/-- Every operation's parameters are read. -/
theorem exists_of_operations {frames : Nat} {document parameters node : Value N}
    {ops : List (Operation N)} (h : operations doc b frames document = .ok ops)
    (hschemas : schemasOf doc document = .ok schemas)
    (hparameters : ParametersAre doc document parameters)
    (hreaches : Reaches doc parameterPlace document node) :
    ∃ place p, parameter doc b frames node parameters schemas place = .ok p := by
  rcases hparameters with ⟨top, _, rfl, hcomponents, fields, rfl, rfl⟩
  unfold schemasOf at hschemas
  rw [item_map hcomponents, ok_bind] at hschemas
  unfold operations at h
  rw [item_map hcomponents, ok_bind, hschemas, ok_bind, get_map, ok_bind, get_map, ok_bind] at h
  rcases bind_eq_ok.mp h with ⟨item, hitem, h⟩
  rcases bind_eq_ok.mp h with ⟨paths, hpaths, h⟩
  rcases bind_eq_ok.mp h with ⟨found, hfound, _⟩
  rw [entriesOf_eq_ok] at hpaths
  subst hpaths
  unfold parameterPlace at hreaches
  rw [reaches_key] at hreaches
  -- The paths the generator goes through are the ones the place is on.
  rcases hreaches with ⟨_, _, heq, hunder, hreaches⟩
  cases heq
  rcases item_eq_ok.mp hitem with ⟨_, heq, hunder'⟩
  cases heq
  rw [hunder] at hunder'
  cases hunder'
  rcases reaches_any.mp hreaches with ⟨_, heq, path, hpath, hreaches⟩
  cases heq
  rcases reaches_any.mp hreaches with ⟨methods, hmethods, method, hmethod, hreaches⟩
  rw [reaches_key] at hreaches
  rcases hreaches with ⟨declared, _, hdeclared, hitems, hreaches⟩
  rcases reaches_each.mp hreaches with ⟨items, rfl, node, hnode, hreaches⟩
  rw [reaches_nil] at hreaches
  subst hreaches
  rcases exists_mem_of_mapM hfound hpath with ⟨read, _, hread⟩
  simp only [pathOperations, hmethods, entriesOf, ok_bind] at hread
  rcases exists_mem_of_mapM hread hmethod with ⟨op, _, hop⟩
  rcases method with ⟨key, operationNode⟩
  cases key with
  | text name =>
      simp only [] at hop hdeclared
      -- Only the methods it knows have operations; it refuses the others.
      split at hop
      · rw [hdeclared] at hop
        rcases exists_of_operation_parameter hitems hnode hop with ⟨p, hp⟩
        exact ⟨_, p, hp⟩
      · cases hop
  | _ => cases hop

/-- In a document that the sources are made of, a schema that is asked for its keywords has
    the ones the generator reads. -/
theorem supported_of_sources {fixed : Fixed} {frames : Nat} {document : Value N}
    {schema : List (Scalar × N)} {made : Str × Str}
    (h : sources doc b fixed frames document = .ok made) (hasked : IsAsked doc document schema) :
    ∀ entry ∈ schema, Supported entry.1 := by
  unfold sources at h
  rcases bind_eq_ok.mp h with ⟨models, hmodels, h⟩
  rcases bind_eq_ok.mp h with ⟨client, hclient, _⟩
  rcases hasked with hnamed | ⟨schemas, own, hschemas, hown, hplace⟩
  · exact supported_of_named hmodels hnamed
  · rcases hplace with ⟨named, property, hfield, hproperty⟩ | ⟨parameters, node, hparameters,
      hreaches, htyped⟩
    · -- A field's schema is asked by the models, a parameter's by the client.
      rcases exists_of_modelsSource hmodels hschemas hfield with ⟨required, f, hf, _⟩
      rcases exists_of_field hf with ⟨r, hr, _⟩
      rw [hproperty] at hr
      exact supported_of_asked hown hr
    · unfold clientSource at hclient
      rcases bind_eq_ok.mp hclient with ⟨ops, hops, _⟩
      rcases exists_of_operations hops hschemas hparameters hreaches with ⟨place, p, hp⟩
      rcases exists_of_parameter htyped hp with ⟨frames', place', r, hr⟩
      exact supported_of_asked hown hr

/-- A keyword the generator does not read is refused exactly if it meets no fault on its way
    and, where nobody asks for the keyword, refuses something else. -/
theorem strayRefused_iff (b : Builtins N) (fixed : Fixed) {frames : Nat} {document : Value N} :
    (Stray doc document → ∃ message, sources doc b fixed frames document =
        .error (.refused message)) ↔
      (Stray doc document → SourcesRead doc b frames document True) ∧
        (PassedOver doc document → SourcesRead doc b frames document False) := by
  have hread : ∀ Q : Prop, SourcesRead doc b frames document Q ↔
      Settles (fun _ => Q) (sources doc b fixed frames document) := fun _ => settles_sources.symm
  simp only [exists_refused_iff, hread]
  constructor
  · intro h
    refine ⟨fun hstray => (settles_iff.mp (h hstray)).1, ?_⟩
    rintro ⟨entries, entry, hschema, _, hentry, hnot⟩
    exact h ⟨entries, entry, hschema, hentry, hnot⟩
  · rintro ⟨hread, hpassed⟩ ⟨entries, entry, hschema, hentry, hnot⟩
    -- Where the keyword is asked for, a document that is read to its end would have been made into
    -- sources, and then the keyword is one the generator reads.
    by_cases hasked : IsAsked doc document entries
    · by_contra hrefused
      have hsettles := hread ⟨entries, entry, hschema, hentry, hnot⟩
      rcases exists_ok_iff.mpr ⟨hsettles, hrefused⟩ with ⟨made, hmade⟩
      exact hnot (supported_of_sources hmade hasked entry hentry)
    · exact hpassed ⟨entries, entry, hschema, hasked, hentry, hnot⟩

theorem at_and_not {s : Str} {v : Value N} {P P' : Value N → Prop} :
    At doc s v (fun w => P w ∧ ¬ P' w) ↔ At doc s v P ∧ ¬ At doc s v P' := by
  constructor
  · rintro ⟨entries, w, rfl, hw, hP, hnot⟩
    refine ⟨⟨entries, w, rfl, hw, hP⟩, ?_⟩
    rintro ⟨_, _, heq, hw', hP'⟩
    cases heq
    rw [hw] at hw'
    cases hw'
    exact hnot hP'
  · rintro ⟨⟨entries, w, rfl, hw, hP⟩, hnot⟩
    exact ⟨entries, w, rfl, hw, hP, fun hP' => hnot ⟨entries, w, rfl, hw, hP'⟩⟩

/-- The models are made exactly if the schemas are read and none is refused. -/
theorem exists_modelsSource_iff {header : Str} {frames : Nat} {document : Value N} :
    (∃ source, modelsSource doc b header frames document = .ok source) ↔
      ModelsAccepted doc frames document := by
  unfold ModelsAccepted
  simp only [at_and_not]
  rw [exists_ok_iff, settles_modelsSource, settles_modelsSource, settles_schemasOf,
    settles_schemasOf]

/-- Every field is kept exactly if, where the models are made, whatever constrains a field
    beside a reference does so again where the references end. -/
theorem fieldsKept_iff {header : Str} {frames : Nat} {document : Value N} :
    FieldsKept doc b header frames document ↔
      (ModelsAccepted doc frames document → SaidAgain doc b document) := by
  have hmade : ModelsAccepted doc frames document ↔
      ∃ source, modelsSource doc b header frames document = .ok source :=
    exists_modelsSource_iff.symm
  rw [hmade]
  constructor
  · rintro hkept ⟨source, hsource⟩ schemas named property own schema hschemas hfield
    have hfields := exists_of_modelsSource hsource hschemas hfield
    exact (fieldKept_iff hfields).mp (hkept source schemas hsource hschemas named property hfield)
      own schema
  · intro hagain source schemas hsource hschemas named property hfield
    refine (fieldKept_iff (exists_of_modelsSource hsource hschemas hfield)).mpr ?_
    exact fun own schema => hagain ⟨source, hsource⟩ schemas named property own schema hschemas
      hfield

/-- Nothing is dropped exactly if, where the models are made, whatever constrains a field
    beside a reference does so again where the references end; a document with a keyword
    the generator does not read is of the shape it is taken for; and where such a keyword
    stands in a schema that is not asked, something else is refused. -/
theorem nothingDropped_iff (doc : N → Value N) (b : Builtins N) (fixed : Fixed) (frames : Nat)
    (document : Value N) :
    NothingDropped doc b fixed frames document ↔
      (ModelsAccepted doc frames document → SaidAgain doc b document) ∧
        (Stray doc document → SourcesRead doc b frames document True) ∧
          (PassedOver doc document → SourcesRead doc b frames document False) :=
  and_congr fieldsKept_iff (strayRefused_iff b fixed)

end Models

/-! ### A keyword beside a reference -/

/-- A property that is of a named primitive, at least one character of it, in a unit. -/
def beside : List (Scalar × Tree) :=
  [(.text (text "$ref"), .scalar (.text (text "#/components/schemas/Name"))),
    (.text (text "minLength"), .scalar (.int 1)),
    (.text (text "x-unit"), .scalar (.text (text "words")))]

/-- A primitive that says of itself what type it is of. -/
def primitive : List (Scalar × Tree) :=
  [(.text (text "type"), .scalar (.text (text "string")))]

def namedSchemas : List (Scalar × Tree) :=
  [(.text (text "Name"), .map primitive),
    (.text (text "Person"), .map [(.text (text "type"), .scalar (.text (text "object"))),
      (.text (text "additionalProperties"), .scalar (.bool false)),
      (.text (text "required"), .seq [.scalar (.text (text "name"))]),
      (.text (text "properties"), .map [(.text (text "name"), .map beside)])])]

/-- A document of the two. -/
def unitDocument : Tree :=
  .map [(.text (text "openapi"), .scalar (.text (text "3.1.0"))),
    (.text (text "info"), .map []), (.text (text "paths"), .map []),
    (.text (text "components"), .map [(.text (text "schemas"), .map namedSchemas)])]

/-- How the language writes an integer and a text. -/
def written : Builtins Tree :=
  { plain with
    repr := fun
      | .scalar (.int n) => signed n
      | .scalar (.text s) => text "'" ++ s ++ text "'"
      | _ => [] }

/-- The keyword beside the reference is no argument of the field. -/
theorem not_nothingDropped_beside :
    ¬ ∀ (b : Builtins Tree) (fixed : Fixed) (frames : Nat) (document : Value Tree),
      NothingDropped Tree.value b fixed frames document := by
  intro h
  have hkept := (h written ⟨[], [], [], [], [], []⟩ 1000 unitDocument.value).1
  have hok : (modelsSource Tree.value written [] 1000 unitDocument.value).isOk := by
    decide +kernel
  rcases exists_of_isOk hok with ⟨source, hsource⟩
  have hfield : FieldOf Tree.value (.map namedSchemas) (.text (text "Person"))
      (.text (text "name"), .map beside) :=
    ⟨namedSchemas, _, _, _, rfl, List.mem_cons_of_mem _ List.mem_cons_self, rfl,
      Or.inr rfl, rfl, List.mem_cons_self⟩
  rcases hkept source (.map namedSchemas) hsource rfl _ _ hfield with
    ⟨required, f, hf, _, harguments⟩
  have hasked : text "min_length=1" ∈ constraintsOf Tree.value written beside := by
    decide +kernel
  have hmem := harguments beside beside rfl Relation.ReflTransGen.refl _ hasked
  -- What is asked beside the reference is not asked of the primitive it leads to.
  rcases (mem_arguments_iff hf hasked).mp hmem with ⟨last, hends, hlast⟩
  have hleads : LeadsTo Tree.value (.map namedSchemas) beside primitive :=
    ⟨text "Name", namedSchemas, rfl, rfl, rfl, by decide +kernel⟩
  rw [endsIn_of_leadsTo hleads, endsIn_of_none rfl] at hends
  subst hends
  have hnone : ¬ text "min_length=1" ∈ constraintsOf Tree.value written primitive := by
    decide +kernel
  exact hnone hlast

end Codegen

end ClaimTriage
