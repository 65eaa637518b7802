import ClaimTriage.Codegen.Client

/-!
# What Is Read

Which documents the generator reads without a fault, place by place.

Every condition here is on the document, and says of a place: it is of the shape
it is taken for, and if it is not one the generator refuses, then so is what is
read next. What is read next is the last argument `Q`, so the places follow each
other in the order they are read in, and nothing is asked of what lies behind the
first one that is refused.

References are followed for `frames` steps at most. A chain of them that leads
back to itself is not within any number of steps.

## Main definitions

* `IsObject`, `IsClass`, `Supported`: What a schema and a keyword are.
* `KeysRead`, `SchemaRead`, `FieldRead`: The keywords of a schema are read, and so is
  what a field is annotated by.
* `EnumRead`, `ModelRead`, `BlockRead`: A schema with a name is.
* `ModelsRead`: All of them are.
* `constraintsOf`: What the keywords of a schema constrain a field by.

## Theorems

* `not_schemaRead_self`: A schema that refers to itself is not read.
* `settles_annotationOf`: A schema is annotated exactly if it is read.
* `settles_modelsSource`: The models are made exactly if the schemas are read.
-/

namespace ClaimTriage

namespace Codegen

open Theory Text Numeral Failing Yaml

section Conditions

variable {N : Type} (doc : N → Value N)

/-- The kind of value a schema says it is of. -/
def TypeIs (name : Str) (entries : List (Scalar × N)) : Prop :=
  ∃ s, under doc (text "type") entries = some (.scalar (.text s)) ∧ s = name

/-- An object schema. -/
def IsObject (entries : List (Scalar × N)) : Prop :=
  TypeIs doc (text "object") entries ∨ (find (text "properties") entries).isSome

/-- A schema that is a class of its own. -/
def IsClass (entries : List (Scalar × N)) : Prop :=
  (find (text "enum") entries).isSome ∨ IsObject doc entries

/-- A key the generator reads. -/
def Supported (key : Scalar) : Prop :=
  ∃ name ∈ supportedKeywords, key = .text name

/-- The keys of a schema that the generator does not read are ones it can name. -/
def KeysRead (entries : List (Scalar × N)) (Q : Prop) : Prop :=
  (∀ entry ∈ entries, ¬ Supported entry.1 → ∃ name, entry.1 = .text name) ∧
    ((∀ entry ∈ entries, Supported entry.1) → Q)

/-- The schema carries a keyword that constrains a field. -/
def Constrained (entries : List (Scalar × N)) : Prop :=
  (∃ keyword ∈ constraintKeywords, (find keyword.1 entries).isSome) ∨
    (find (text "pattern") entries).isSome

/-- All of some values are texts. -/
def AllTexts (values : List (Value N)) : Prop :=
  ∀ v ∈ values, ∃ s, v = .scalar (.text s)

/-- A format is something that can be looked up; and it is none, or one the contract may
    use. -/
def FormatRead (entries : List (Scalar × N)) (Q : Prop) : Prop :=
  (∀ v ∈ under doc (text "format") entries, v.hashable) ∧
    ((∀ v ∈ under doc (text "format") entries, v = .scalar .null ∨
      ∃ name ∈ formats.map Prod.fst, v = .scalar (.text name)) → Q)

/-- A schema is read for an annotation. What is read next may depend on whether it is one
    that constrains a field. -/
def SchemaRead (schemas : Value N) : Nat → Value N → (Prop → Prop) → Prop
  | 0, _, _ => False
  | frames + 1, schema, P => ∃ entries, schema = .map entries ∧
      match under doc (text "$ref") entries with
      | some reference =>
          -- A reference that leads elsewhere is refused.
          ∀ name, reference = .scalar (.text (schemaPrefix ++ name)) →
            ∃ all target, schemas = .map all ∧ under doc name all = some (.map target) ∧
              (IsClass doc target → P False) ∧
              (¬ IsClass doc target → SchemaRead schemas frames (.map target) P)
      | none =>
          match under doc (text "enum") entries with
          | some values =>
              ∃ l, elements doc values = some l ∧
                (AllTexts l → KeysRead entries (P (Constrained entries)))
          | none =>
              (TypeIs doc (text "array") entries →
                ∃ items, under doc (text "items") entries = some items ∧
                  SchemaRead schemas frames items fun constrained =>
                    ¬ constrained → KeysRead entries (P (Constrained entries))) ∧
              (TypeIs doc (text "string") entries →
                FormatRead doc entries (KeysRead entries (P (Constrained entries)))) ∧
              (TypeIs doc (text "integer") entries → KeysRead entries (P (Constrained entries)))

/-- A field of a model is read. -/
def FieldRead (schemas : Value N) (frames : Nat) (schema : Value N) (Q : Prop) : Prop :=
  SchemaRead doc schemas frames schema fun _ =>
    (∀ entries, schema = .map entries → Commentable (under doc (text "description") entries)) ∧ Q

/-- A set can be made of a value. -/
def SetRead (v : Value N) : Prop :=
  ∃ l, elements doc v = some l ∧ ∀ m ∈ l, m.hashable

/-- One value of an enum is read: a text, described by one or by nothing. -/
def MemberRead (described value : Value N) (Q : Prop) : Prop :=
  ∃ s, value = .scalar (.text s) ∧
    (∃ names, described = .map names ∧ Commentable (under doc s names)) ∧ (Usable s → Q)

/-- What the values of an enum are described as. -/
def descriptionsOf (entries : List (Scalar × N)) : Value N :=
  (under doc (text "x-enum-descriptions") entries).getD (.map [])

/-- A named enum is read. -/
def EnumRead (entries : List (Scalar × N)) (Q : Prop) : Prop :=
  KeysRead entries (TypeIs doc (text "string") entries →
    Textable (under doc (text "description") entries) ∧
    ∃ values l, under doc (text "enum") entries = some values ∧ elements doc values = some l ∧
      InTurn (MemberRead doc (descriptionsOf doc entries)) l Q)

/-- An object schema is read. -/
def ModelRead (schemas : Value N) (frames : Nat) (entries : List (Scalar × N)) (Q : Prop) : Prop :=
  KeysRead entries
    (under doc (text "additionalProperties") entries = some (.scalar (.bool false)) →
      SetRead doc ((under doc (text "required") entries).getD (.seq [])) ∧
      (((under doc (text "properties") entries).getD (.map [])).truthy →
        Textable (under doc (text "description") entries) ∧
        ∃ properties, under doc (text "properties") entries = some (.map properties) ∧
          InTurn (fun property q => FieldRead doc schemas frames (doc property.2) q) properties Q))

/-- A named schema is read. -/
def BlockRead (schemas : Value N) (frames : Nat) (schema : Value N) (Q : Prop) : Prop :=
  ∃ entries, schema = .map entries ∧
    (IsObject doc entries → ModelRead doc schemas frames entries Q) ∧
    (¬ IsObject doc entries → (find (text "enum") entries).isSome → EnumRead doc entries Q) ∧
    (¬ IsObject doc entries → ¬ (find (text "enum") entries).isSome → KeysRead entries Q)

/-- The schemas are read. -/
def ModelsRead (schemas : Value N) (frames : Nat) (Q : Prop) : Prop :=
  ∃ all, schemas = .map all ∧
    InTurn (fun schema q => BlockRead doc schemas frames (doc schema.2) q) all Q

/-- A schema that refers to itself is not read within any number of steps. -/
theorem not_schemaRead_self {schemas : Value N} {entries all : List (Scalar × N)} {name : Str}
    (href : under doc (text "$ref") entries = some (.scalar (.text (schemaPrefix ++ name))))
    (hclass : ¬ IsClass doc entries) (hall : schemas = .map all)
    (hself : under doc name all = some (.map entries)) (frames : Nat) (P : Prop → Prop) :
    ¬ SchemaRead doc schemas frames (.map entries) P := by
  induction frames with
  | zero => exact not_false
  | succ frames ih =>
      rw [SchemaRead]
      rintro ⟨_, heq, hread⟩
      cases heq
      rw [href] at hread
      rcases hread name rfl with ⟨_, target, hall', hunder, _, hread⟩
      rw [hall] at hall'
      cases hall'
      rw [hself] at hunder
      cases hunder
      exact ih (hread hclass)

end Conditions

/-! ### Reading the models -/

section Models

variable {N : Type} {doc : N → Value N} {b : Builtins N} {schemas : Value N}

theorem any_isText {v : Option (Value N)} {s : Str} :
    v.any (·.isText s) = true ↔ v = some (.scalar (.text s)) := by
  cases v with
  | none => exact ⟨nofun, nofun⟩
  | some v => rw [Option.any_some, isText_iff, Option.some.injEq]

theorem typeIs_iff {name : Str} {entries : List (Scalar × N)} :
    TypeIs doc name entries ↔ (under doc (text "type") entries).any (·.isText name) = true := by
  rw [any_isText]
  exact ⟨fun ⟨_, h, heq⟩ => heq ▸ h, fun h => ⟨name, h, rfl⟩⟩

/-- A schema is of one type at most. -/
theorem TypeIs.ne {name other : Str} {entries : List (Scalar × N)} (h : TypeIs doc name entries)
    (hother : name ≠ other) : ¬ TypeIs doc other entries := by
  rcases h with ⟨_, h, rfl⟩
  rintro ⟨_, h', rfl⟩
  rw [h] at h'
  cases h'
  exact hother rfl

instance (name : Str) (entries : List (Scalar × N)) : Decidable (TypeIs doc name entries) :=
  decidable_of_iff _ typeIs_iff.symm

instance (entries : List (Scalar × N)) : Decidable (IsObject doc entries) :=
  inferInstanceAs (Decidable (_ ∨ _))

instance (entries : List (Scalar × N)) : Decidable (IsClass doc entries) :=
  inferInstanceAs (Decidable (_ ∨ _))

theorem isObject_map {entries : List (Scalar × N)} :
    isObject doc (.map entries) = .ok (decide (IsObject doc entries)) := by
  unfold isObject
  rw [get_map, ok_bind]
  by_cases htype : TypeIs doc (text "object") entries
  · have hobject : IsObject doc entries := Or.inl htype
    rw [if_pos (typeIs_iff.mp htype), decide_eq_true hobject]
    rfl
  · rw [if_neg fun h => htype (typeIs_iff.mpr h), contains_map]
    refine congrArg _ ?_
    rw [Bool.eq_iff_iff, decide_eq_true_eq]
    exact ⟨Or.inr, fun h => h.resolve_left htype⟩

theorem settles_isObject {P : Bool → Prop} {v : Value N} :
    Settles P (isObject doc v) ↔
      ∃ entries, v = .map entries ∧ P (decide (IsObject doc entries)) := by
  constructor
  · intro h
    unfold isObject at h
    rcases settles_get.mp (settles_bind.mp h) with ⟨entries, rfl, _⟩
    rw [← isObject.eq_def, isObject_map] at h
    exact ⟨entries, rfl, h⟩
  · rintro ⟨entries, rfl, h⟩
    rw [isObject_map]
    exact h

theorem isEnum_map {entries : List (Scalar × N)} :
    isEnum doc (.map entries) =
      .ok (decide ((find (text "enum") entries).isSome ∧ ¬ IsObject doc entries)) := by
  unfold isEnum
  rw [contains_map, ok_bind, isObject_map, ok_bind]
  by_cases henum : (find (text "enum") entries).isSome
  · rw [if_pos henum, ← decide_not]
    simp only [henum, true_and]
    rfl
  · rw [if_neg henum]
    simp only [henum, Bool.false_eq_true, false_and, decide_false]
    rfl

/-- What is neither an enum nor an object is asked for both, and only a mapping can be. -/
theorem exists_of_settles_isEnum {P : Bool → Prop} {v : Value N}
    (h : Settles P (isEnum doc v)) (hP : P false → Settles (fun _ => True) (isObject doc v)) :
    ∃ entries, v = .map entries := by
  unfold isEnum at h
  rcases settles_contains.mp (settles_bind.mp h) with ⟨found, _, h⟩
  cases found with
  | false =>
      rcases settles_isObject.mp (hP h) with ⟨entries, hmap, _⟩
      exact ⟨entries, hmap⟩
  | true =>
      rw [if_pos rfl, settles_bind] at h
      rcases settles_isObject.mp h with ⟨entries, hmap, _⟩
      exact ⟨entries, hmap⟩

theorem settles_isClass {P : Bool → Prop} {v : Value N} :
    Settles P (isClass doc v) ↔ ∃ entries, v = .map entries ∧ P (decide (IsClass doc entries)) := by
  have hmap : ∀ entries, isClass doc (.map entries) = .ok (decide (IsClass doc entries)) := by
    intro entries
    unfold isClass
    rw [isEnum_map, ok_bind, isObject_map]
    by_cases hobject : IsObject doc entries
    · simp [hobject, IsClass]
    · by_cases henum : (find (text "enum") entries).isSome <;> simp [hobject, henum, IsClass]
      rfl
  constructor
  · intro h
    have hentries : ∃ entries, v = .map entries := by
      unfold isClass at h
      refine exists_of_settles_isEnum (settles_bind.mp h) fun hfalse => ?_
      exact (settles_iff.mp hfalse).1
    rcases hentries with ⟨entries, rfl⟩
    rw [hmap] at h
    exact ⟨entries, rfl, h⟩
  · rintro ⟨entries, rfl, h⟩
    rw [hmap]
    exact h

/-! ### Keywords -/

theorem isSupported_iff {key : Scalar} :
    isSupported (.scalar key : Value N) = true ↔ Supported key := by
  unfold isSupported Supported
  rw [List.any_eq_true]
  refine exists_congr fun name => and_congr_right fun _ => ?_
  cases key with
  | text s =>
      simp only [Value.isText, decide_eq_true_eq, Scalar.text.injEq]
  | _ =>
      constructor
      · intro h
        cases h
      · intro h
        cases h

theorem textsOf_isSome {values : List (Value N)} :
    (textsOf values).isSome ↔ AllTexts values := by
  unfold AllTexts
  induction values with
  | nil => exact ⟨fun _ _ h => absurd h List.not_mem_nil, fun _ => rfl⟩
  | cons v rest ih =>
      rw [List.forall_mem_cons]
      cases v with
      | scalar s =>
          cases s with
          | text s =>
              simp only [textsOf, Option.isSome_map, ih]
              exact ⟨fun h => ⟨⟨s, rfl⟩, h⟩, And.right⟩
          | _ => exact ⟨nofun, fun ⟨⟨_, h⟩, _⟩ => absurd h nofun⟩
      | _ => exact ⟨nofun, fun ⟨⟨_, h⟩, _⟩ => absurd h nofun⟩

variable (doc) in
/-- The support check faults at a key it cannot name. -/
theorem settles_checkSupported (place : Str) {Q : Prop} {entries : List (Scalar × N)} :
    Settles (fun _ => Q) (checkSupported doc (.map entries) place) ↔ KeysRead entries Q := by
  have hothers : ∀ key : Scalar,
      (.scalar key : Value N) ∈ (entries.map fun entry => (.scalar entry.1 : Value N)).filter
        (! isSupported ·) ↔ (∃ entry ∈ entries, entry.1 = key) ∧ ¬ Supported key := by
    intro key
    rw [List.mem_filter, List.mem_map, Bool.not_eq_true', ← Bool.not_eq_true, isSupported_iff]
    simp only [Value.scalar.injEq]
  have hscalar : ∀ v ∈ (entries.map fun entry => (.scalar entry.1 : Value N)).filter
      (! isSupported ·), ∃ key, v = .scalar key := by
    intro v hv
    rcases List.mem_map.mp (List.mem_filter.mp hv).1 with ⟨entry, _, rfl⟩
    exact ⟨entry.1, rfl⟩
  unfold checkSupported KeysRead
  rw [settles_bind, settles_iterate]
  simp only [elements, Option.some.injEq, exists_eq_left']
  cases hfilter : (entries.map fun entry => (.scalar entry.1 : Value N)).filter
      (! isSupported ·) with
  | nil =>
      rw [hfilter] at hothers
      have hall : ∀ entry ∈ entries, Supported entry.1 := by
        intro entry hentry
        by_contra hnot
        exact absurd ((hothers entry.1).mpr ⟨⟨entry, hentry, rfl⟩, hnot⟩) List.not_mem_nil
      exact ⟨fun h => ⟨fun entry hentry hnot => absurd (hall entry hentry) hnot, fun _ => h⟩,
        fun h => h.2 hall⟩
  | cons first rest =>
      have hnotall : ¬ ∀ entry ∈ entries, Supported entry.1 := by
        intro hall
        have hmem : first ∈ first :: rest := List.mem_cons_self
        rw [← hfilter] at hmem
        rcases hscalar first hmem with ⟨key, rfl⟩
        rcases (hothers key).mp hmem with ⟨⟨entry, hentry, rfl⟩, hnot⟩
        exact hnot (hall entry hentry)
      rw [hfilter] at hothers hscalar
      have htexts : AllTexts (first :: rest) ↔
          ∀ entry ∈ entries, ¬ Supported entry.1 → ∃ name, entry.1 = .text name := by
        constructor
        · intro h entry hentry hnot
          rcases h _ ((hothers entry.1).mpr ⟨⟨entry, hentry, rfl⟩, hnot⟩) with ⟨name, heq⟩
          exact ⟨name, Value.scalar.inj heq⟩
        · intro h v hv
          rcases hscalar v hv with ⟨key, rfl⟩
          rcases (hothers key).mp hv with ⟨⟨entry, hentry, rfl⟩, hnot⟩
          rcases h entry hentry hnot with ⟨name, heq⟩
          exact ⟨name, congrArg _ heq⟩
      simp only []
      cases hnames : textsOf (first :: rest) with
      | none =>
          refine ⟨False.elim, fun h => ?_⟩
          have hsome := textsOf_isSome.mpr (htexts.mpr h.1)
          rw [hnames] at hsome
          cases hsome
      | some names =>
          refine ⟨fun _ => ⟨htexts.mp (textsOf_isSome.mp ?_), fun hall => absurd hall hnotall⟩,
            fun _ => trivial⟩
          rw [hnames]
          rfl

/-! ### Fields -/

/-- What the keywords of a schema constrain a field by. -/
def constraintsOf (doc : N → Value N) (b : Builtins N) (entries : List (Scalar × N)) : List Str :=
  constraintKeywords.filterMap (fun keyword => (under doc keyword.1 entries).map
    (argument b keyword)) ++
  ((under doc (text "pattern") entries).map fun v => text "pattern=" ++ b.repr v).toList

variable (doc b) in
theorem constraintsOf_ne_nil {entries : List (Scalar × N)} :
    (constraintsOf doc b entries ≠ []) = Constrained entries := by
  unfold constraintsOf Constrained
  rw [eq_iff_iff, ne_eq, List.append_eq_nil_iff, not_and_or]
  refine or_congr ?_ ?_
  · rw [List.filterMap_eq_nil_iff]
    simp only [Option.map_eq_none_iff, isSome_find doc, Option.isSome_iff_ne_none,
      not_forall, exists_prop]
  · rw [isSome_find doc]
    cases under doc (text "pattern") entries <;> simp

theorem constraints_map {entries : List (Scalar × N)} {place : Str} :
    constraints doc b (.map entries) place =
      checkSupported doc (.map entries) place >>= fun _ => .ok (constraintsOf doc b entries) := by
  unfold constraints constraintsOf
  rw [filterMapM_eq_ok (g := fun keyword => (under doc keyword.1 entries).map
    (argument b keyword))]
  · rw [ok_bind, contains_map, ok_bind, isSome_find doc]
    cases hpattern : under doc (text "pattern") entries with
    | none => rfl
    | some v =>
        rw [item_map hpattern]
        rfl
  · intro keyword _
    rw [contains_map, ok_bind, isSome_find doc]
    cases hunder : under doc keyword.1 entries with
    | none => rfl
    | some v =>
        rw [item_map hunder]
        rfl

theorem settles_constraints {P : Prop → Prop} {entries : List (Scalar × N)} {place : Str} :
    Settles (fun r => P (r ≠ [])) (constraints doc b (.map entries) place) ↔
      KeysRead entries (P (Constrained entries)) := by
  rw [constraints_map, settles_bind, ← settles_checkSupported doc place,
    ← constraintsOf_ne_nil doc b]
  exact settles_congr fun _ => Iff.rfl

theorem settles_referenceName {P : Str → Prop} {v : Value N} {start place : Str} :
    Settles P (referenceName doc v start place) ↔
      ∃ entries reference, v = .map entries ∧ under doc (text "$ref") entries = some reference ∧
        ∀ name, reference = .scalar (.text (start ++ name)) → P name := by
  unfold referenceName
  rw [settles_bind, settles_item]
  refine exists_congr fun entries => exists_congr fun reference => and_congr_right fun _ =>
    and_congr_right fun _ => ?_
  cases reference with
  | scalar s =>
      cases s with
      | text s =>
          simp only [Value.scalar.injEq, Scalar.text.injEq]
          by_cases hstart : start <+: s
          · rcases hstart with ⟨name, rfl⟩
            rw [if_pos (List.prefix_append start name), settles_pure, List.drop_left]
            exact ⟨fun h _ heq => List.append_cancel_left heq ▸ h, fun h => h name rfl⟩
          · rw [if_neg hstart]
            refine ⟨fun _ name heq => absurd ?_ hstart, fun _ => trivial⟩
            exact heq ▸ List.prefix_append start name
      | _ => exact ⟨fun _ _ h => absurd h nofun, fun _ => trivial⟩
  | _ => exact ⟨fun _ _ h => absurd h nofun, fun _ => trivial⟩

theorem referenceName_eq_ok {v : Value N} {start place name : Str} :
    referenceName doc v start place = .ok name ↔ ∃ entries, v = .map entries ∧
      under doc (text "$ref") entries = some (.scalar (.text (start ++ name))) := by
  unfold referenceName
  rw [bind_eq_ok]
  simp only [item_eq_ok]
  constructor
  · rintro ⟨reference, ⟨entries, rfl, href⟩, h⟩
    refine ⟨entries, rfl, ?_⟩
    cases reference with
    | scalar s =>
        cases s with
        | text s =>
            simp only [] at h
            by_cases hstart : start <+: s
            · rw [if_pos hstart] at h
              cases h
              rcases hstart with ⟨rest, rfl⟩
              rw [List.drop_left]
              exact href
            · rw [if_neg hstart] at h
              cases h
        | _ => cases h
    | _ => cases h
  · rintro ⟨entries, rfl, href⟩
    refine ⟨_, ⟨entries, rfl, href⟩, ?_⟩
    simp only [List.prefix_append, if_true, List.drop_left]
    rfl

theorem settles_literal {Q : Prop} {values : Value N} {place : Str} :
    Settles (fun _ => Q) (literal doc values place) ↔
      ∃ l, elements doc values = some l ∧ (AllTexts l → Q) := by
  unfold literal
  rw [settles_bind, settles_iterate]
  refine exists_congr fun l => and_congr_right fun _ => ?_
  rw [← textsOf_isSome]
  cases textsOf l with
  | none => exact ⟨fun _ h => absurd h nofun, fun _ => trivial⟩
  | some names => exact ⟨fun h _ => h, fun h => h rfl⟩

theorem settles_stringAnnotationOf {Q : Prop} {entries : List (Scalar × N)} {place : Str} :
    Settles (fun _ => Q) (stringAnnotationOf doc b (.map entries) place) ↔
      FormatRead doc entries Q := by
  unfold stringAnnotationOf FormatRead
  rw [get_map, ok_bind]
  cases under doc (text "format") entries with
  | none => exact ⟨fun h => ⟨nofun, fun _ => h⟩, fun h => h.2 nofun⟩
  | some v =>
      simp only [Option.mem_some_iff, forall_eq']
      cases v with
      | scalar s =>
          cases s with
          | null => exact ⟨fun h => ⟨rfl, fun _ => h⟩, fun h => h.2 (Or.inl rfl)⟩
          | text name =>
              simp only []
              cases hlookup : formats.lookup name with
              | none =>
                  refine ⟨fun _ => ⟨rfl, ?_⟩, fun _ => trivial⟩
                  rintro (h | ⟨_, hname, heq⟩)
                  · cases h
                  · cases heq
                    exact absurd hname (Dict.lookup_eq_none_iff.mp hlookup)
              | some held =>
                  refine ⟨fun h => ⟨rfl, fun _ => h⟩, fun h => h.2 (Or.inr ⟨name, ?_, rfl⟩)⟩
                  refine Dict.lookup_isSome_iff.mp ?_
                  rw [hlookup]
                  rfl
          | _ =>
              refine ⟨fun _ => ⟨rfl, ?_⟩, fun _ => trivial⟩
              rintro (h | ⟨_, _, h⟩) <;> cases h
      | _ => exact ⟨False.elim, fun h => absurd h.1 nofun⟩

/-- An annotation is only found for a mapping. -/
theorem exists_of_settles_annotationOf {P : Str × List Str → Prop} {frames : Nat}
    {schema : Value N} {place : Str}
    (h : Settles P (annotationOf doc b frames schema schemas place)) :
    ∃ entries, schema = .map entries := by
  cases frames with
  | zero => exact h.elim
  | succ frames =>
      rw [annotationOf, settles_bind, settles_contains] at h
      rcases h with ⟨found, _, h⟩
      cases found with
      | true =>
          rw [if_pos rfl, settles_bind, settles_referenceName] at h
          rcases h with ⟨entries, _, hmap, _⟩
          exact ⟨entries, hmap⟩
      | false =>
          rw [if_neg Bool.false_ne_true, settles_bind, settles_contains] at h
          rcases h with ⟨found, _, h⟩
          cases found with
          | true =>
              rw [if_pos rfl, settles_bind, settles_item] at h
              rcases h with ⟨entries, _, hmap, _⟩
              exact ⟨entries, hmap⟩
          | false =>
              rw [if_neg Bool.false_ne_true, settles_bind, settles_get] at h
              rcases h with ⟨entries, hmap, _⟩
              exact ⟨entries, hmap⟩

/-- What a name refers to is taken for a schema, which has to be a mapping. -/
theorem settles_target {β : Type} {P : List (Scalar × N) → Prop} {name : Str}
    {f : Value N → Except Raised β} {R : β → Prop}
    (hf : ∀ v, Settles R (f v) ↔ ∃ target, v = .map target ∧ P target) :
    Settles R (item doc name schemas >>= f) ↔
      ∃ all target, schemas = .map all ∧ under doc name all = some (.map target) ∧ P target := by
  rw [settles_bind, settles_item]
  refine exists_congr fun all => ?_
  constructor
  · rintro ⟨v, hall, hunder, h⟩
    rcases (hf v).mp h with ⟨target, rfl, hP⟩
    exact ⟨target, hall, hunder, hP⟩
  · rintro ⟨target, hall, hunder, hP⟩
    exact ⟨_, hall, hunder, (hf _).mpr ⟨target, rfl, hP⟩⟩

/-- An annotation that goes with what the keywords constrain. -/
theorem settles_annotated {P : Prop → Prop} {annotated place : Str}
    {entries : List (Scalar × N)} :
    Settles (fun r => P (r.2 ≠ [])) (do
      return (annotated, ← constraints doc b (.map entries) place)) ↔
      KeysRead entries (P (Constrained entries)) := by
  rw [settles_bind]
  exact settles_constraints

variable (b) in
/-- A schema is annotated exactly if it is read. -/
theorem settles_annotationOf (place : Str) {frames : Nat} {schema : Value N} {P : Prop → Prop} :
    Settles (fun r => P (r.2 ≠ [])) (annotationOf doc b frames schema schemas place) ↔
      SchemaRead doc schemas frames schema P := by
  induction frames generalizing schema place P with
  | zero => exact Iff.rfl
  | succ frames ih =>
      rw [SchemaRead]
      refine Iff.trans (b := ∃ entries, schema = .map entries ∧ Settles (fun r => P (r.2 ≠ []))
        (annotationOf doc b (frames + 1) (.map entries) schemas place)) ⟨fun h => ?_, ?_⟩ ?_
      · rcases exists_of_settles_annotationOf h with ⟨entries, rfl⟩
        exact ⟨entries, rfl, h⟩
      · rintro ⟨entries, rfl, h⟩
        exact h
      refine exists_congr fun entries => and_congr_right fun _ => ?_
      rw [annotationOf, contains_map, ok_bind, isSome_find doc]
      cases href : under doc (text "$ref") entries with
      | some reference =>
          -- A reference is followed before anything else of the schema is looked at.
          simp only [Option.isSome_some, if_true]
          rw [settles_bind, settles_referenceName]
          have hfollow : ∀ name : Str, Settles (fun r => P (r.2 ≠ [])) (do
              let target ← item doc name schemas
              if ← isClass doc target then return (name, [])
              else annotationOf doc b frames target schemas name) ↔
              ∃ all target, schemas = .map all ∧ under doc name all = some (.map target) ∧
                (IsClass doc target → P False) ∧
                (¬ IsClass doc target → SchemaRead doc schemas frames (.map target) P) := by
            intro name
            refine settles_target fun v => ?_
            rw [settles_bind, settles_isClass]
            refine exists_congr fun target => and_congr_right ?_
            rintro rfl
            by_cases hclass : IsClass doc target
            · simp only [hclass, decide_true, if_true, not_true, false_implies, true_implies,
                and_true, settles_pure, ne_eq]
            · simp only [hclass, decide_false, Bool.false_eq_true, if_false, not_false_eq_true,
                false_implies, true_implies, true_and]
              exact ih name
          constructor
          · rintro ⟨_, _, heq, hreference, h⟩ name hname
            cases heq
            rw [href] at hreference
            cases hreference
            exact (hfollow name).mp (h name hname)
          · exact fun h => ⟨entries, reference, rfl, href, fun name hname =>
              (hfollow name).mpr (h name hname)⟩
      | none =>
          simp only [Option.isSome_none, Bool.false_eq_true, if_false]
          rw [contains_map, ok_bind, isSome_find doc]
          cases henum : under doc (text "enum") entries with
          | some values =>
              simp only [Option.isSome_some, if_true]
              rw [item_map henum, ok_bind, settles_bind,
                settles_congr fun annotated => settles_annotated, settles_literal]
          | none =>
              simp only [Option.isSome_none, Bool.false_eq_true, if_false]
              rw [get_map, ok_bind]
              by_cases harray : TypeIs doc (text "array") entries
              · have hstring : ¬ TypeIs doc (text "string") entries :=
                  harray.ne (by decide +kernel)
                have hinteger : ¬ TypeIs doc (text "integer") entries :=
                  harray.ne (by decide +kernel)
                rw [if_pos (typeIs_iff.mp harray), settles_bind, settles_item]
                simp only [harray, hstring, hinteger, false_implies, true_implies, and_true,
                  Value.map.injEq, ↓existsAndEq, true_and]
                refine exists_congr fun items => and_congr_right fun _ => ?_
                rw [settles_bind, ← ih (place ++ text "[]")]
                refine settles_congr fun r => ?_
                by_cases hitems : r.2 = []
                · rw [if_neg (not_not_intro hitems), settles_annotated]
                  exact ⟨fun h _ => h, fun h => h (not_not_intro hitems)⟩
                · rw [if_pos hitems]
                  exact ⟨fun _ hnot => absurd hitems hnot, fun _ => trivial⟩
              rw [if_neg fun h => harray (typeIs_iff.mpr h)]
              by_cases hstring : TypeIs doc (text "string") entries
              · have hinteger : ¬ TypeIs doc (text "integer") entries :=
                  hstring.ne (by decide +kernel)
                rw [if_pos (typeIs_iff.mp hstring), settles_bind,
                  settles_congr fun annotated => settles_annotated, settles_stringAnnotationOf]
                simp only [hstring, harray, hinteger, false_implies, true_implies, and_true,
                  true_and]
              rw [if_neg fun h => hstring (typeIs_iff.mpr h)]
              by_cases hinteger : TypeIs doc (text "integer") entries
              · rw [if_pos (typeIs_iff.mp hinteger), settles_annotated]
                simp only [hinteger, harray, hstring, false_implies, true_implies, true_and]
              rw [if_neg fun h => hinteger (typeIs_iff.mpr h)]
              simp only [hinteger, harray, hstring, false_implies, and_true, iff_true]
              trivial

/-- Where an annotation is found, the reference it is found through is one to a mapping. -/
theorem followed_of_annotation_eq_ok {frames : Nat} {schema : Value N} {place : Str}
    {r : Str × List Str} (h : annotationOf doc b frames schema schemas place = .ok r) :
    ∃ entries, schema = .map entries ∧
      ∀ reference, under doc (text "$ref") entries = some reference →
        ∃ name all target, reference = .scalar (.text (schemaPrefix ++ name)) ∧
          schemas = .map all ∧ under doc name all = some (.map target) := by
  have hread : SchemaRead doc schemas frames schema fun _ => True := by
    rw [← settles_annotationOf b place, h]
    trivial
  have hnot : ¬ SchemaRead doc schemas frames schema fun _ => False := by
    rw [← settles_annotationOf b place]
    exact settles_false_of_eq_ok h
  cases frames with
  | zero => exact hread.elim
  | succ frames =>
      rw [SchemaRead] at hread hnot
      rcases hread with ⟨entries, rfl, hread⟩
      refine ⟨entries, rfl, fun reference href => ?_⟩
      rw [href] at hread
      by_contra hnone
      refine hnot ⟨entries, rfl, ?_⟩
      rw [href]
      -- A reference that leads elsewhere would have been refused.
      intro name hname
      rcases hread name hname with ⟨all, target, hall, hunder, _⟩
      exact absurd ⟨name, all, target, hname, hall, hunder⟩ hnone

/-- What a followed reference is described by can be laid out. -/
theorem referencedDescription_of_followed {entries : List (Scalar × N)}
    (h : ∀ reference, under doc (text "$ref") entries = some reference →
      ∃ name all target, reference = .scalar (.text (schemaPrefix ++ name)) ∧
        schemas = .map all ∧ under doc name all = some (.map target)) :
    ∃ described, referencedDescription doc b (.map entries) schemas = .ok described ∧
      Commentable described := by
  unfold referencedDescription
  rw [contains_map, ok_bind, isSome_find doc]
  cases href : under doc (text "$ref") entries with
  | none => exact ⟨none, rfl, nofun⟩
  | some reference =>
      rcases h reference href with ⟨name, all, target, rfl, rfl, hunder⟩
      have hname : referenceName doc (.map entries) schemaPrefix (b.str (.map entries)) =
          .ok name := referenceName_eq_ok.mpr ⟨entries, rfl, href⟩
      simp only [Option.isSome_some, if_true]
      rw [hname, ok_bind, item_map hunder, ok_bind, get_map, ok_bind]
      cases under doc (text "description") target with
      | none => exact ⟨none, rfl, nofun⟩
      | some v =>
          cases v with
          | scalar s =>
              cases s with
              | text s =>
                  refine ⟨_, rfl, ?_⟩
                  rintro _ hv _
                  cases hv
                  exact Or.inl ⟨s, rfl⟩
              | _ => exact ⟨none, rfl, nofun⟩
          | _ => exact ⟨none, rfl, nofun⟩

theorem settles_field {frames : Nat} {name : Scalar} {schema : Value N} {required : Bool}
    {place : Str} {Q : Prop} :
    Settles (fun _ => Q) (field doc b frames name schema schemas required place) ↔
      FieldRead doc schemas frames schema Q := by
  unfold field FieldRead
  rw [settles_bind, ← settles_annotationOf b place]
  refine settles_congr_of_ok fun r hr => ?_
  rcases followed_of_annotation_eq_ok hr with ⟨entries, rfl, hfollowed⟩
  rcases referencedDescription_of_followed (b := b) hfollowed with ⟨described, hdescribed, hlaid⟩
  simp only [Value.map.injEq, forall_eq']
  rw [get_map, ok_bind]
  by_cases hown : (under doc (text "description") entries).any (·.truthy)
  · rw [if_pos hown, settles_bind, settles_pure, settles_bind,
      settles_congr fun _ => settles_pure, settles_comments]
  · -- What it is described as itself counts for nothing, and can be anything.
    have hvacuous : Commentable (under doc (text "description") entries) := by
      intro v hv htruthy
      rw [Option.mem_def] at hv
      rw [hv] at hown
      exact absurd htruthy hown
    rw [if_neg hown, hdescribed, ok_bind, settles_bind, settles_congr fun _ => settles_pure,
      settles_comments]
    exact ⟨fun h => ⟨hvacuous, h.2⟩, fun h => ⟨hlaid, h.2⟩⟩

/-! ### Classes -/

/-- What a text is mapped to is found by any key equal to it, which is itself only. -/
theorem settles_getValue {P : Option (Value N) → Prop} {s : Str} {described : Value N} :
    Settles P (getValue doc (.scalar (.text s)) described) ↔
      ∃ names, described = .map names ∧ P (under doc s names) := by
  cases described with
  | map names =>
      have hsame : (fun entry : Scalar × N => entry.1.same (.text s)) =
          fun entry => decide (entry.1 = .text s) := by
        funext entry
        rw [Scalar.same, Bool.eq_iff_iff, decide_eq_true_eq, decide_eq_true_eq]
        refine ⟨?_, Or.inl⟩
        rintro (h | ⟨hsome, hnone⟩)
        · exact h
        · rw [hnone] at hsome
          cases hsome
      have hvalue : getValue doc (.scalar (.text s)) (.map names) = .ok (under doc s names) := by
        rw [getValue, hsame, under, find, Option.map_map]
        rfl
      rw [hvalue]
      refine ⟨fun h => ⟨names, rfl, h⟩, ?_⟩
      rintro ⟨_, heq, hP⟩
      cases heq
      exact hP
  | scalar | seq | set => exact ⟨False.elim, fun ⟨_, h, _⟩ => absurd h nofun⟩

/-- What a value is looked up as is found, or raises a fault. -/
theorem of_settles_getValue {P : Option (Value N) → Prop} {value described : Value N}
    (h : Settles P (getValue doc value described)) : ∃ v, P v := by
  unfold getValue at h
  split at h
  · exact ⟨_, h⟩
  · exact h.elim
  · exact h.elim

theorem settles_member {Q : Prop} {described value : Value N} {place : Str} :
    Settles (fun _ => Q) (member doc b described value place) ↔
      MemberRead doc described value Q := by
  have hrest : ∀ v : Option (Value N), Settles (fun _ => Q) (do
      let comments ← comments b v indent
      let name ← memberName b value place
      return (⟨comments, name, b.str value⟩ : Member)) ↔
      Commentable v ∧ ∃ s, value = .scalar (.text s) ∧ (Usable s → Q) := by
    intro v
    rw [settles_bind, settles_congr fun comments => ?_, settles_comments]
    rw [settles_bind, settles_congr fun name => settles_pure, settles_memberName]
  unfold member MemberRead
  rw [settles_bind, settles_congr hrest]
  constructor
  · intro h
    rcases of_settles_getValue h with ⟨_, _, s, rfl, hQ⟩
    rcases settles_getValue.mp h with ⟨names, hnames, hlaid, _⟩
    exact ⟨s, rfl, ⟨names, hnames, hlaid⟩, hQ⟩
  · rintro ⟨s, rfl, ⟨names, hnames, hlaid⟩, hQ⟩
    exact settles_getValue.mpr ⟨names, hnames, hlaid, s, rfl, hQ⟩

theorem settles_enumDescriptions {P : Value N → Prop} {schema : Value N} :
    Settles P (enumDescriptions doc schema) ↔
      ∃ entries, schema = .map entries ∧ P (descriptionsOf doc entries) := by
  unfold enumDescriptions
  rw [settles_bind, settles_get]
  exact exists_congr fun entries => and_congr_right fun _ => settles_pure

theorem settles_enumClass {Q : Prop} {name : Scalar} {entries : List (Scalar × N)} :
    Settles (fun _ => Q) (enumClass doc b name (.map entries)) ↔ EnumRead doc entries Q := by
  unfold enumClass EnumRead
  rw [settles_bind, settles_checkSupported, get_map, ok_bind]
  refine and_congr_right fun _ => imp_congr_right fun _ => ?_
  by_cases hstring : TypeIs doc (text "string") entries
  · rw [if_neg (not_not_intro (typeIs_iff.mp hstring)), settles_bind, settles_enumDescriptions]
    simp only [Value.map.injEq, exists_eq_left', hstring, true_implies]
    rw [get_map, ok_bind]
    refine (settles_bind_of_const fun opening => ?_).trans settles_textLines
    rw [settles_bind, settles_item]
    simp only [Value.map.injEq, ↓existsAndEq, true_and, exists_and_left]
    refine exists_congr fun values => and_congr_right fun _ => ?_
    rw [settles_bind, settles_iterate]
    refine exists_congr fun l => and_congr_right fun _ => ?_
    rw [settles_bind, settles_congr fun _ => settles_pure, settles_mapM]
    exact inTurn_congr fun value _ q => settles_member
  · rw [if_pos fun h => hstring (typeIs_iff.mpr h)]
    exact ⟨fun _ h => absurd h hstring, fun _ => trivial⟩

theorem settles_setOf {Q : Prop} {v : Value N} :
    Settles (fun _ => Q) (setOf doc v) ↔ SetRead doc v ∧ Q := by
  unfold setOf SetRead
  rw [settles_bind, settles_iterate, ← exists_and_right]
  refine exists_congr fun l => ?_
  rw [and_assoc]
  refine and_congr_right fun _ => ?_
  by_cases hall : l.all Value.hashable
  · rw [if_pos hall]
    exact ⟨fun h => ⟨List.all_eq_true.mp hall, h⟩, And.right⟩
  · rw [if_neg hall]
    exact ⟨False.elim, fun h => hall (List.all_eq_true.mpr h.1)⟩

theorem settles_modelClass {Q : Prop} {frames : Nat} {name : Scalar}
    {entries : List (Scalar × N)} :
    Settles (fun _ => Q) (modelClass doc b frames name (.map entries) schemas) ↔
      ModelRead doc schemas frames entries Q := by
  unfold modelClass ModelRead
  rw [settles_bind, settles_checkSupported, get_map, ok_bind]
  refine and_congr_right fun _ => imp_congr_right fun _ => ?_
  split
  · rename_i hclosed
    rw [hclosed, eq_self, true_implies, get_map, ok_bind]
    refine (settles_bind_of_const fun required => ?_).trans settles_setOf
    rw [get_map, ok_bind]
    simp only []
    by_cases hproperties : ((under doc (text "properties") entries).getD (.map [])).truthy
    · rw [if_neg (not_not_intro hproperties), eq_true hproperties, true_implies, get_map, ok_bind]
      refine (settles_bind_of_const fun opening => ?_).trans settles_textLines
      rw [settles_bind, settles_entriesOf]
      refine exists_congr fun properties => and_congr ?_ ?_
      · cases hunder : under doc (text "properties") entries with
        | none =>
            -- No properties are none that there are any of.
            rw [hunder] at hproperties
            cases hproperties
        | some v => rw [Option.getD_some, Option.some.injEq]
      · rw [settles_bind_of_const fun _ => settles_pure, settles_mapM]
        exact inTurn_congr fun property _ q => settles_field
    · rw [if_pos hproperties]
      exact ⟨fun _ h => absurd h hproperties, fun _ => trivial⟩
  · rename_i hopen
    exact ⟨fun _ h => absurd h hopen, fun _ => trivial⟩

theorem settles_schemaBlock {Q : Prop} {frames : Nat} {name : Scalar} {schema : Value N} :
    Settles (fun _ => Q) (schemaBlock doc b frames name schema schemas) ↔
      BlockRead doc schemas frames schema Q := by
  have hmap : ∀ entries, Settles (fun _ => Q)
      (schemaBlock doc b frames name (.map entries) schemas) ↔
      (IsObject doc entries → ModelRead doc schemas frames entries Q) ∧
      (¬ IsObject doc entries → (find (text "enum") entries).isSome → EnumRead doc entries Q) ∧
      (¬ IsObject doc entries → ¬ (find (text "enum") entries).isSome →
        KeysRead entries Q) := by
    intro entries
    unfold schemaBlock
    rw [isEnum_map, ok_bind, isObject_map, ok_bind]
    by_cases hobject : IsObject doc entries
    · simp only [hobject, not_true, and_false, decide_false, Bool.false_eq_true, if_false,
        decide_true, if_true, true_implies, false_implies, and_true]
      exact settles_modelClass
    by_cases henum : (find (text "enum") entries).isSome
    · simp only [hobject, henum, not_false_eq_true, and_true, decide_true, if_true, not_true,
        false_implies, true_implies, true_and]
      exact settles_enumClass
    · have hclass : ¬ IsClass doc entries := fun h => h.elim henum hobject
      simp only [hobject, henum, not_false_eq_true, Bool.false_eq_true, false_and, decide_false,
        if_false, false_implies, true_implies, true_and]
      rw [settles_bind, settles_congr fun _ => ?_, settles_checkSupported]
      rw [settles_bind, settles_isClass]
      simp only [Value.map.injEq, exists_eq_left', hclass, decide_false, Bool.false_eq_true,
        if_false]
      exact settles_pure
  constructor
  · intro h
    have hentries : ∃ entries, schema = .map entries := by
      unfold schemaBlock at h
      refine exists_of_settles_isEnum (settles_bind.mp h) fun hfalse => ?_
      rw [if_neg Bool.false_ne_true] at hfalse
      exact (settles_iff.mp (settles_bind.mp hfalse)).1
    rcases hentries with ⟨entries, rfl⟩
    exact ⟨entries, rfl, (hmap entries).mp h⟩
  · rintro ⟨entries, rfl, h⟩
    exact (hmap entries).mpr h

/-- The models are made exactly if the schemas are read. -/
theorem settles_modelsSource {Q : Prop} {header : Str} {frames : Nat} {document : Value N} :
    Settles (fun _ => Q) (modelsSource doc b header frames document) ↔
      Settles (fun schemas => ModelsRead doc schemas frames Q) (schemasOf doc document) := by
  unfold modelsSource
  rw [settles_bind]
  refine settles_congr fun schemas => ?_
  unfold ModelsRead
  rw [settles_bind, settles_entriesOf]
  refine exists_congr fun all => and_congr_right fun _ => ?_
  rw [settles_bind_of_const fun _ => settles_pure, settles_mapM]
  exact inTurn_congr fun schema _ q => settles_schemaBlock

end Models

end Codegen

end ClaimTriage
