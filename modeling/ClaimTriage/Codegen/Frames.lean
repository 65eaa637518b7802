import ClaimTriage.Codegen.Operations

/-!
# Following References To The End

What the generator comes to for a document, whatever the number of frames there
are for it.

A reading that comes to an end with so many frames comes to the same with more,
so a document either has one outcome from some number of frames on, or is
followed without end. It has a good one exactly if its places are read
(`SourcesRead`) with some number of steps along its references.

## Main definitions

* `Declares`: A document the generator sets out to read.
* `Generated`: The generator comes to an end, with the sources or a refusal.

## Theorems

* `sources_extends`: More frames change nothing.
* `generated_iff`: The generator comes to a good end exactly if the document is
  read.
-/

namespace ClaimTriage

namespace Codegen

open Theory Text Numeral Failing Yaml

section Frames

variable {N : Type} {doc : N → Value N} {b : Builtins N} {schemas : Value N}

/-- The same, unless it ran out of frames. -/
abbrev Further {α : Type} (x y : Except Raised α) : Prop :=
  Extends (.fault .recursion) x y

theorem annotation_further {frames : Nat} {schema : Value N} {place : Str} :
    Further (annotationOf doc b frames schema schemas place)
      (annotationOf doc b (frames + 1) schema schemas place) := by
  induction frames generalizing schema place with
  | zero => exact Or.inl rfl
  | succ frames ih =>
      rw [annotationOf, annotationOf]
      refine extends_bind (Extends.refl _ _) fun found => ?_
      split
      · -- A reference is followed with one frame less.
        refine extends_bind (Extends.refl _ _) fun name => ?_
        refine extends_bind (Extends.refl _ _) fun target => ?_
        refine extends_bind (Extends.refl _ _) fun class' => ?_
        split
        · exact Extends.refl _ _
        · exact ih
      · refine extends_bind (Extends.refl _ _) fun found => ?_
        split
        · exact Extends.refl _ _
        · refine extends_bind (Extends.refl _ _) fun kind => ?_
          split
          · refine extends_bind (Extends.refl _ _) fun items => ?_
            exact extends_bind ih fun _ => Extends.refl _ _
          · exact Extends.refl _ _

theorem field_further {frames : Nat} {name : Scalar} {schema : Value N} {required : Bool}
    {place : Str} :
    Further (field doc b frames name schema schemas required place)
      (field doc b (frames + 1) name schema schemas required place) :=
  extends_bind annotation_further fun _ => Extends.refl _ _

theorem modelClass_further {frames : Nat} {name : Scalar} {schema : Value N} :
    Further (modelClass doc b frames name schema schemas)
      (modelClass doc b (frames + 1) name schema schemas) := by
  unfold modelClass
  refine extends_bind (Extends.refl _ _) fun _ => ?_
  refine extends_bind (Extends.refl _ _) fun others => ?_
  split
  · refine extends_bind (Extends.refl _ _) fun listed => ?_
    refine extends_bind (Extends.refl _ _) fun required => ?_
    refine extends_bind (Extends.refl _ _) fun properties => ?_
    simp only []
    split
    · exact Extends.refl _ _
    · refine extends_bind (Extends.refl _ _) fun described => ?_
      refine extends_bind (Extends.refl _ _) fun opening => ?_
      refine extends_bind (Extends.refl _ _) fun entries => ?_
      refine extends_bind (extends_mapM fun property _ => ?_) fun _ => Extends.refl _ _
      exact field_further
  · exact Extends.refl _ _

theorem schemaBlock_further {frames : Nat} {name : Scalar} {schema : Value N} :
    Further (schemaBlock doc b frames name schema schemas)
      (schemaBlock doc b (frames + 1) name schema schemas) := by
  unfold schemaBlock
  refine extends_bind (Extends.refl _ _) fun enum => ?_
  split
  · exact Extends.refl _ _
  · refine extends_bind (Extends.refl _ _) fun object => ?_
    split
    · exact modelClass_further
    · exact Extends.refl _ _

theorem modelsSource_further {header : Str} {frames : Nat} {document : Value N} :
    Further (modelsSource doc b header frames document)
      (modelsSource doc b header (frames + 1) document) := by
  unfold modelsSource
  refine extends_bind (Extends.refl _ _) fun schemas => ?_
  refine extends_bind (Extends.refl _ _) fun entries => ?_
  refine extends_bind (extends_mapM fun schema _ => ?_) fun _ => Extends.refl _ _
  exact schemaBlock_further

theorem parameter_further {frames : Nat} {node parameters : Value N} {place : Str} :
    Further (parameter doc b frames node parameters schemas place)
      (parameter doc b (frames + 1) node parameters schemas place) := by
  induction frames generalizing node with
  | zero => exact Or.inl rfl
  | succ frames ih =>
      rw [parameter, parameter]
      refine extends_bind (Extends.refl _ _) fun found => ?_
      split
      · refine extends_bind (Extends.refl _ _) fun name => ?_
        refine extends_bind (Extends.refl _ _) fun declared => ?_
        split
        · exact extends_bind (Extends.refl _ _) fun target => ih
        · exact Extends.refl _ _
      · refine extends_bind (Extends.refl _ _) fun location => ?_
        split
        · refine extends_bind (Extends.refl _ _) fun schema => ?_
          refine extends_bind (Extends.refl _ _) fun name => ?_
          exact extends_bind annotation_further fun _ => Extends.refl _ _
        · exact Extends.refl _ _

theorem operation_further {frames : Nat} {declared parameters responses : Value N} {method : Str}
    {path : Scalar} {place : Str} :
    Further (operation doc b frames declared method path schemas parameters responses place)
      (operation doc b (frames + 1) declared method path schemas parameters responses place) := by
  unfold operation
  refine extends_bind (Extends.refl _ _) fun operationId => ?_
  split
  · exact Extends.refl _ _
  · split
    · exact Extends.refl _ _
    · refine extends_bind (Extends.refl _ _) fun listed => ?_
      refine extends_bind (Extends.refl _ _) fun nodes => ?_
      refine extends_bind (extends_mapM fun node _ => parameter_further) fun inPath => ?_
      refine extends_bind (Extends.refl _ _) fun nodes => ?_
      refine extends_bind (extends_mapM fun node _ => parameter_further) fun inHeader => ?_
      exact Extends.refl _ _

theorem operations_further {frames : Nat} {document : Value N} :
    Further (operations doc b frames document) (operations doc b (frames + 1) document) := by
  unfold operations
  refine extends_bind (Extends.refl _ _) fun components => ?_
  refine extends_bind (Extends.refl _ _) fun schemas => ?_
  refine extends_bind (Extends.refl _ _) fun parameters => ?_
  refine extends_bind (Extends.refl _ _) fun responses => ?_
  refine extends_bind (Extends.refl _ _) fun item => ?_
  refine extends_bind (Extends.refl _ _) fun paths => ?_
  refine extends_bind (extends_mapM fun path _ => ?_) fun _ => Extends.refl _ _
  refine extends_bind (Extends.refl _ _) fun methods => extends_mapM fun method _ => ?_
  rcases method with ⟨key, node⟩
  cases key with
  | text name =>
      simp only []
      split
      · exact operation_further
      · exact Extends.refl _ _
  | _ => exact Extends.refl _ _

/-- With more frames the generator comes to the same, unless it ran out of them. -/
theorem sources_further {fixed : Fixed} {frames : Nat} {document : Value N} :
    Further (sources doc b fixed frames document) (sources doc b fixed (frames + 1) document) := by
  unfold sources clientSource
  refine extends_bind modelsSource_further fun models => ?_
  refine extends_bind ?_ fun _ => Extends.refl _ _
  exact extends_bind operations_further fun ops => Extends.refl _ _

theorem sources_extends {fixed : Fixed} {m n : Nat} (hmn : m ≤ n) {document : Value N} :
    Further (sources doc b fixed m document) (sources doc b fixed n document) := by
  induction n, hmn using Nat.le_induction with
  | base => exact Extends.refl _ _
  | succ n _ ih => exact ih.trans sources_further

/-- A document the generator sets out to read: a mapping that declares what it asks a
    document for. -/
def Declares (doc : N → Value N) (document : Value N) : Prop :=
  ∃ top components, document = .map top ∧ (find (text "openapi") top).isSome ∧
    (find (text "info") top).isSome ∧ (find (text "paths") top).isSome ∧
    under doc (text "components") top = some (.map components) ∧
    (find (text "schemas") components).isSome

/-- The generator comes to an end, whose outcome is the sources or a construct it refuses by
    name, and nothing else. -/
def Generated (doc : N → Value N) (b : Builtins N) (fixed : Fixed) (document : Value N) : Prop :=
  ∃ outcome, (∃ frames, ∀ m ≥ frames, sources doc b fixed m document = outcome) ∧
    ((∃ made, outcome = .ok made) ∨ ∃ message, outcome = .error (.refused message))

/-- The generator comes to a good end exactly for the documents that are read. -/
theorem generated_iff (doc : N → Value N) (b : Builtins N) (fixed : Fixed) (document : Value N) :
    Generated doc b fixed document ↔ ∃ frames, SourcesRead doc b frames document True := by
  have hread : ∀ (Q : Prop) (frames : Nat), SourcesRead doc b frames document Q ↔
      Settles (fun _ => Q) (sources doc b fixed frames document) := fun _ _ => settles_sources.symm
  simp only [hread]
  constructor
  · rintro ⟨outcome, ⟨frames, hframes⟩, hgood⟩
    refine ⟨frames, ?_⟩
    rw [hframes frames le_rfl]
    rcases hgood with ⟨made, rfl⟩ | ⟨message, rfl⟩ <;> trivial
  · rintro ⟨frames, hsettles⟩
    refine ⟨_, ⟨frames, fun m hm => (eq_of_extends hsettles id (sources_extends hm)).symm⟩, ?_⟩
    cases houtcome : sources doc b fixed frames document with
    | ok made => exact Or.inl ⟨made, rfl⟩
    | error stop =>
        rw [houtcome] at hsettles
        cases stop with
        | refused message => exact Or.inr ⟨message, rfl⟩
        | fault fault => exact hsettles.elim

end Frames

/-! ### A document with no error codes -/

/-- A document that declares all that is asked of it, and nothing more. -/
def bare : Tree :=
  .map [(.text (text "openapi"), .scalar (.text (text "3.1.0"))),
    (.text (text "info"), .map []), (.text (text "paths"), .map []),
    (.text (text "components"), .map [(.text (text "schemas"), .map [])])]

/-- The tables of a language that has no letters. -/
def plain : Builtins Tree where
  repr _ := []
  lower := id
  upper := id
  capitalize := id
  isWord _ := false
  decimal _ := none

/-- The codes of the errors are looked up in the schemas without being asked for. -/
theorem not_generated_bare :
    ¬ ∀ (b : Builtins Tree) (fixed : Fixed) (document : Value Tree),
      Declares Tree.value document → Generated Tree.value b fixed document := by
  intro h
  have hbare : ∀ m, sources Tree.value plain ⟨[], [], [], [], [], []⟩ m bare.value =
      .error (.fault .key) := fun m => rfl
  rcases h plain ⟨[], [], [], [], [], []⟩ bare.value ⟨_, _, rfl, rfl, rfl, rfl, rfl, rfl⟩ with
    ⟨outcome, ⟨frames, hframes⟩, hgood⟩
  have houtcome := (hbare frames).symm.trans (hframes frames le_rfl)
  rcases hgood with ⟨made, rfl⟩ | ⟨message, rfl⟩
  · cases houtcome
  · cases houtcome

end Codegen

end ClaimTriage
