import ClaimTriage.Evaluation.Answers
import ClaimTriage.Evaluation.Metrics
import ClaimTriage.Theory.Loads

/-!
# The Shapes of the Material

What each model takes of a JSON value, and what is written of one of its
instances: which keys there are, which of them may be left out, and what is under
each. A key that is none of a model's is refused, and so is a field whose name is
no field's name.

What a plain type takes is the validation library's affair (`Library`): a text
where a text is asked for is that text, and so on, and what else it takes for one
is left open. The machine's numbers are the library's affair too.

## Main definitions

* `Library`: The plain types.
* `Shape`: What a model takes, and what is written of its instances.
* `headerShape`, `extractionShape`, …: The models' shapes.
* `CaseFor`, `AnswerFor`: The cases and answers of a capability.
* `caseShape`, `answerShape`: Their shapes.
* `recordedAnswer`: What stands on a line of recorded answers.

## Theorems

* `fieldsOf_record`: The fields of what is written are those that were.
* `items_arr`: And so are the items.
* `recordedAnswer_lineValue`: A line of answers is taken for what it was written of.
-/

namespace ClaimTriage

namespace Evaluation

open Theory Text

/-- A scalar as it is written. -/
def Scalar.toValue : Scalar → Value
  | .str s => .str s
  | .int n => .int n
  | .float written => .float written
  | .bool b => .bool b
  | .none => .null

/-- How a library takes the plain types: at the least, each as it is written. Which
    scores there are as the machine's numbers, and what is written of them, is its
    affair, and so is what it says of what does not fit. -/
structure Library where
  str : Value → Option Str
  int : Value → Option Int
  bool : Value → Option Bool
  number : Value → Option Score
  date : Value → Option Calendar.Date
  scalar : Value → Option Scalar
  report : Str → Value → Str
  read : Str → Str
  Held : Score → Prop
  written : Score → Str
  str_eq : ∀ s, str (.str s) = some s
  int_eq : ∀ n, int (.int n) = some n
  bool_eq : ∀ b, bool (.bool b) = some b
  date_eq : ∀ d, date (.str (Calendar.Date.isoformat d)) = some d
  scalar_eq : ∀ s : Scalar, scalar s.toValue = some s
  number_eq : ∀ q, Held q → number (.float (written q)) = some q
  written_stable : ∀ q, Held q → Value.Stable read (.float (written q))

/-- What a model takes, and what is written of its instances that hold numbers of the
    machine's. -/
structure Shape (L : Library) (α : Type) where
  name : Str
  fits : Value → Option α
  dump : α → Value
  Good : α → Prop
  fits_dump : ∀ a, Good a → fits (dump a) = some a
  stable : ∀ a, Good a → ∀ v ∈ (dump a).atoms, Value.Stable L.read v
  framed : ∀ a n, Good a → Value.Framed (n + 3) (dump a)
  isObj : ∀ a, ∃ fs, dump a = .obj fs

/-- The model of a shape. -/
def Shape.model {L : Library} {α : Type} (S : Shape L α) : Model Value α where
  name := S.name
  validate v := match S.fits v with
    | some a => .ok a
    | none => .error (L.report S.name v)

section Fields

variable {β : Type}

/-- The fields of an object, none of which has another name than these. -/
def fieldsOf (names : List Str) : Value → Option (List (Str × Value))
  | .obj fs => if ∀ name ∈ fs.map Prod.fst, name ∈ names then some fs else none
  | _ => none

/-- What a field holds that has to be there. -/
def required (fs : List (Str × Value)) (name : Str) (take : Value → Option β) : Option β :=
  (fs.lookup name).bind take

/-- What a field holds, or what it is taken to hold where it is left out. -/
def optional (fs : List (Str × Value)) (name : Str) (default_ : β) (take : Value → Option β) :
    Option β :=
  match fs.lookup name with
  | none => some default_
  | some v => take v

/-- Every item of an array. -/
def items (take : Value → Option β) : Value → Option (List β)
  | .arr xs => xs.mapM take
  | _ => none

/-- An object with these names, and these values under them. -/
def record (names : List Str) (vs : List Value) : Value :=
  .obj (names.zip vs)

theorem fieldsOf_record (names : List Str) (vs : List Value) :
    fieldsOf names (record names vs) = some (names.zip vs) := by
  refine if_pos fun name hname => ?_
  rcases List.mem_map.mp hname with ⟨f, hf, rfl⟩
  exact (List.of_mem_zip hf).1

theorem items_arr {α : Type} {take : Value → Option β} {dump : α → Value} {of : α → β}
    {as : List α} (h : ∀ a ∈ as, take (dump a) = some (of a)) :
    items take (.arr (as.map dump)) = some (as.map of) := by
  unfold items
  induction as with
  | nil => rfl
  | cons a as ih =>
      rw [List.forall_mem_cons] at h
      simp only at ih
      simp only [List.map_cons, List.mapM_cons, h.1, ih h.2, Option.pure_def, Option.bind_eq_bind,
        Option.bind_some]

theorem atomsItems_eq_flatMap (vs : List Value) :
    Value.atomsItems vs = vs.flatMap Value.atoms := by
  induction vs with
  | nil => rfl
  | cons v vs ih => rw [Value.atomsItems, ih, List.flatMap_cons]

theorem framedItems_iff {frames : Nat} {vs : List Value} :
    Value.FramedItems frames vs ↔ ∀ v ∈ vs, Value.Framed frames v := by
  induction vs with
  | nil => exact iff_of_true trivial (List.forall_mem_nil _)
  | cons v vs ih => rw [Value.FramedItems, ih, List.forall_mem_cons]

theorem framedFields_iff {frames : Nat} {fs : List (Str × Value)} :
    Value.FramedFields frames fs ↔ ∀ f ∈ fs, Value.Framed frames f.2 := by
  induction fs with
  | nil => exact iff_of_true trivial (List.forall_mem_nil _)
  | cons f fs ih => rw [Value.FramedFields, ih, List.forall_mem_cons]

/-- Every atom of an object is a key or one of a value's. -/
theorem forall_mem_atomsFields {P : Value → Prop} {fs : List (Str × Value)} :
    (∀ v ∈ Value.atomsFields fs, P v) ↔
      ∀ f ∈ fs, P (.str f.1) ∧ ∀ v ∈ f.2.atoms, P v := by
  induction fs with
  | nil => exact iff_of_true (List.forall_mem_nil _) (List.forall_mem_nil _)
  | cons f fs ih =>
      rw [Value.atomsFields, List.forall_mem_cons, List.forall_mem_append, ih,
        List.forall_mem_cons, and_assoc]

/-- Every atom of an object is a name or one of a value's. -/
theorem forall_mem_atoms_record {P : Value → Prop} {names : List Str}
    (hnames : ∀ name ∈ names, P (.str name)) {vs : List Value}
    (hlength : vs.length ≤ names.length) :
    (∀ a ∈ (record names vs).atoms, P a) ↔ ∀ v ∈ vs, ∀ a ∈ v.atoms, P a := by
  unfold record
  rw [Value.atoms, forall_mem_atomsFields]
  constructor
  · intro h v hv
    rw [← List.map_snd_zip hlength] at hv
    rcases List.mem_map.mp hv with ⟨f, hf, rfl⟩
    exact (h f hf).2
  · exact fun h f hf => ⟨hnames f.1 (List.of_mem_zip hf).1, h f.2 (List.of_mem_zip hf).2⟩

theorem framed_record {names : List Str} (hnames : names.Nodup) {vs : List Value}
    (hlength : names.length ≤ vs.length) {n : Nat} (h : ∀ v ∈ vs, Value.Framed n v) :
    Value.Framed (n + 1) (record names vs) := by
  refine ⟨?_, framedFields_iff.mpr fun f hf => h f.2 (List.of_mem_zip hf).2⟩
  rw [List.map_fst_zip hlength]
  exact hnames

end Fields

section Shapes

variable (L : Library)

/-- A scalar of the machine's. -/
def Plain (s : Scalar) : Prop :=
  Value.Stable L.read s.toValue

theorem stable_scalar {L : Library} {s : Scalar} (h : Plain L s) :
    ∀ v ∈ s.toValue.atoms, Value.Stable L.read v := by
  cases s <;> exact List.forall_mem_singleton.mpr h

theorem framed_scalar (n : Nat) (s : Scalar) : Value.Framed n s.toValue := by
  cases s <;> cases n <;> trivial

/-- A dictionary of scalars, as it is written. -/
def scalarsValue (entries : List (Str × Scalar)) : Value :=
  .obj (entries.map fun e => (e.1, e.2.toValue))

/-- A dictionary of scalars. -/
def scalars : Value → Option (List (Str × Scalar))
  | .obj fs => fs.mapM fun f => (L.scalar f.2).map fun s => (f.1, s)
  | _ => none

theorem scalars_scalarsValue (entries : List (Str × Scalar)) :
    scalars L (scalarsValue entries) = some entries := by
  unfold scalars scalarsValue
  induction entries with
  | nil => rfl
  | cons e entries ih =>
      simp only at ih
      simp only [List.map_cons, List.mapM_cons, L.scalar_eq, ih, Option.map_some, Option.pure_def,
        Option.bind_eq_bind, Option.bind_some]

theorem stable_scalars {L : Library} {entries : List (Str × Scalar)}
    (h : ∀ e ∈ entries, Plain L e.2) :
    ∀ v ∈ (scalarsValue entries).atoms, Value.Stable L.read v := by
  unfold scalarsValue
  rw [Value.atoms, forall_mem_atomsFields, List.forall_mem_map]
  exact fun e he => ⟨trivial, stable_scalar (h e he)⟩

theorem framed_scalars {entries : List (Str × Scalar)} (h : (entries.map Prod.fst).Nodup)
    (n : Nat) : Value.Framed (n + 1) (scalarsValue entries) := by
  refine ⟨?_, framedFields_iff.mpr ?_⟩
  · rw [List.map_map]
    exact h
  · rw [List.forall_mem_map]
    exact fun e _ => framed_scalar n e.2

/-- Values by field name, or none where a name is no field's. -/
def fields (v : Value) : Option Fields := do
  let entries ← scalars L v
  if h : (entries.map Prod.fst).Nodup ∧ ∀ name ∈ entries.map Prod.fst, MatchesFieldName name then
    some ⟨entries, h.1, h.2⟩
  else none

theorem fields_scalarsValue (f : Fields) : fields L (scalarsValue f.entries) = some f := by
  unfold fields
  rw [scalars_scalarsValue, Option.bind_eq_bind, Option.bind_some]
  exact dif_pos ⟨f.nodup, f.named⟩

/-- A number of something, from one on. -/
def positive (v : Value) : Option Nat :=
  (L.int v).bind fun n => if 1 ≤ n then some n.toNat else none

theorem positive_int {n : Nat} (h : 1 ≤ n) : positive L (.int n) = some n := by
  have hn : (1 : Int) ≤ n := by omega
  unfold positive
  rw [L.int_eq, Option.bind_some, if_pos hn]
  rfl

/-- A page, or none. -/
def page : Value → Option (Option Nat)
  | .null => some none
  | v => (positive L v).map some

/-- What is written of a page. -/
def pageValue : Option Nat → Value
  | none => .null
  | some n => .int n

theorem page_pageValue {p : Option Nat} (h : ∀ n ∈ p, 1 ≤ n) : page L (pageValue p) = some p := by
  cases p with
  | none => rfl
  | some n =>
      have hn := positive_int L (h n rfl)
      change (positive L (.int n)).map some = _
      rw [hn]
      rfl

/-! ### Atoms that are written as they are -/

theorem stable_str (s : Str) : ∀ v ∈ (Value.str s).atoms, Value.Stable L.read v :=
  List.forall_mem_singleton.mpr trivial

theorem stable_int (n : Int) : ∀ v ∈ (Value.int n).atoms, Value.Stable L.read v :=
  List.forall_mem_singleton.mpr trivial

theorem stable_bool (b : Bool) : ∀ v ∈ (Value.bool b).atoms, Value.Stable L.read v :=
  List.forall_mem_singleton.mpr trivial

theorem stable_page (p : Option Nat) : ∀ v ∈ (pageValue p).atoms, Value.Stable L.read v := by
  cases p <;> exact List.forall_mem_singleton.mpr trivial

theorem framed_str (n : Nat) (s : Str) : Value.Framed n (.str s) := by
  cases n <;> trivial

theorem framed_int (n : Nat) (i : Int) : Value.Framed n (.int i) := by
  cases n <;> trivial

theorem framed_bool (n : Nat) (b : Bool) : Value.Framed n (.bool b) := by
  cases n <;> trivial

theorem framed_float (n : Nat) (written : Str) : Value.Framed n (.float written) := by
  cases n <;> trivial

theorem framed_page (n : Nat) (p : Option Nat) : Value.Framed n (pageValue p) := by
  cases p <;> cases n <;> trivial

theorem stable_array {α : Type} {dump : α → Value} {as : List α}
    (h : ∀ a ∈ as, ∀ v ∈ (dump a).atoms, Value.Stable L.read v) :
    ∀ v ∈ (Value.arr (as.map dump)).atoms, Value.Stable L.read v := by
  rw [Value.atoms, atomsItems_eq_flatMap]
  intro v hv
  rcases List.mem_flatMap.mp hv with ⟨w, hw, hv⟩
  rcases List.mem_map.mp hw with ⟨a, ha, rfl⟩
  exact h a ha v hv

theorem framed_array {α : Type} {dump : α → Value} {as : List α} {n : Nat}
    (h : ∀ a ∈ as, Value.Framed n (dump a)) : Value.Framed (n + 1) (.arr (as.map dump)) :=
  framedItems_iff.mpr (List.forall_mem_map.mpr h)

/-! ### Clauses -/

/-- The names of a clause's fields. -/
def clauseNames : List Str :=
  [text "clause_id", text "edition", text "page"]

/-- What a clause's model takes. -/
def clause (v : Value) : Option ClauseRef := do
  let fs ← fieldsOf clauseNames v
  let clauseId ← required fs (text "clause_id") L.str
  let edition ← required fs (text "edition") L.str
  let page ← optional fs (text "page") none (page L)
  if h : ∀ p ∈ page, 1 ≤ p then some ⟨clauseId, edition, page, h⟩ else none

/-- What is written of a clause. -/
def clauseValue (c : ClauseRef) : Value :=
  record clauseNames [.str c.clauseId, .str c.edition, pageValue c.page]

theorem clause_clauseValue (c : ClauseRef) : clause L (clauseValue c) = some c := by
  have hid : required (clauseNames.zip [.str c.clauseId, .str c.edition, pageValue c.page])
      (text "clause_id") L.str = some c.clauseId := L.str_eq _
  have hedition : required (clauseNames.zip [.str c.clauseId, .str c.edition, pageValue c.page])
      (text "edition") L.str = some c.edition := L.str_eq _
  have hpage : optional (clauseNames.zip [.str c.clauseId, .str c.edition, pageValue c.page])
      (text "page") none (page L) = some c.page := page_pageValue L c.page_pos
  unfold clause clauseValue
  simp only [fieldsOf_record, Option.bind_eq_bind, Option.bind_some, hid, hedition, hpage]
  exact dif_pos c.page_pos

/-- References to clauses are read back as they are. -/
theorem items_clauses (clauses : List ClauseRef) :
    items (clause L) (.arr (clauses.map clauseValue)) = some clauses := by
  have hitems : items (clause L) (.arr (clauses.map clauseValue)) = some (clauses.map id) :=
    items_arr fun c _ => clause_clauseValue L c
  rwa [List.map_id] at hitems

theorem stable_clause (c : ClauseRef) :
    ∀ v ∈ (clauseValue c).atoms, Value.Stable L.read v := by
  refine (forall_mem_atoms_record (fun _ _ => trivial) le_rfl).mpr ?_
  simp only [List.forall_mem_cons]
  exact ⟨stable_str L _, stable_str L _, stable_page L _, List.forall_mem_nil _⟩

theorem framed_clause (n : Nat) (c : ClauseRef) : Value.Framed (n + 1) (clauseValue c) := by
  refine framed_record (by decide +kernel) le_rfl ?_
  simp only [List.forall_mem_cons]
  exact ⟨framed_str n _, framed_str n _, framed_page n _, List.forall_mem_nil _⟩

/-! ### The header -/

/-- The capability a name is of. -/
def capabilityOf (name : Str) : Option Capability :=
  capabilities.find? fun c => c.value = name

theorem capabilityOf_value (c : Capability) : capabilityOf c.value = some c := by
  cases c <;> decide +kernel

/-- The names of a header's fields. -/
def headerNames : List Str :=
  [text "capability", text "version", text "description"]

theorem nodup_headerNames : headerNames.Nodup := by
  decide +kernel

/-- The shape of a set's header. -/
def headerShape : Shape L SetHeader where
  name := text "SetHeader"
  fits v := do
    let fs ← fieldsOf headerNames v
    let capability ← required fs (text "capability") fun v => (L.str v).bind capabilityOf
    let version ← required fs (text "version") (positive L)
    let description ← required fs (text "description") L.str
    -- The validator has seen to the version, and the header's own field asks for it again.
    if h : 1 ≤ version then some ⟨capability, version, description, h⟩ else none
  dump h := record headerNames [.str h.capability.value, .int h.version, .str h.description]
  Good _ := True
  fits_dump h _ := by
    have hcapability : required (headerNames.zip [.str h.capability.value, .int h.version,
        .str h.description]) (text "capability") (fun v => (L.str v).bind capabilityOf) =
        some h.capability := by
      change (L.str (.str h.capability.value)).bind capabilityOf = _
      rw [L.str_eq, Option.bind_some, capabilityOf_value]
    have hversion : required (headerNames.zip [.str h.capability.value, .int h.version,
        .str h.description]) (text "version") (positive L) = some h.version :=
      positive_int L h.version_pos
    have hdescription : required (headerNames.zip [.str h.capability.value, .int h.version,
        .str h.description]) (text "description") L.str = some h.description := L.str_eq _
    simp only [fieldsOf_record, Option.bind_eq_bind, Option.bind_some, hcapability, hversion,
      hdescription]
    exact dif_pos h.version_pos
  stable h _ := by
    refine (forall_mem_atoms_record (fun _ _ => trivial) le_rfl).mpr ?_
    simp only [List.forall_mem_cons]
    exact ⟨stable_str L _, stable_int L _, stable_str L _, List.forall_mem_nil _⟩
  framed h n _ := by
    refine framed_record nodup_headerNames le_rfl ?_
    simp only [List.forall_mem_cons]
    exact ⟨framed_str _ _, framed_int _ _, framed_str _ _, List.forall_mem_nil _⟩
  isObj h := ⟨_, rfl⟩

/-! ### Cases -/

/-- The names of an extraction case's fields. -/
def extractionNames : List Str :=
  [text "case_id", text "document", text "fields"]

/-- The shape of an extraction case, which states one field at least. -/
def extractionShape : Shape L ExtractionCase where
  name := text "ExtractionCase"
  fits v := do
    let fs ← fieldsOf extractionNames v
    let caseId ← required fs (text "case_id") L.str
    let document ← required fs (text "document") L.str
    let fields ← required fs (text "fields") (fields L)
    -- An extraction case without a field is refused.
    if h : fields.entries ≠ [] then some ⟨caseId, document, fields, h⟩ else none
  dump c := record extractionNames [.str c.caseId, .str c.document, scalarsValue c.fields.entries]
  Good c := ∀ e ∈ c.fields.entries, Plain L e.2
  fits_dump c _ := by
    have hid : required (extractionNames.zip [.str c.caseId, .str c.document,
        scalarsValue c.fields.entries]) (text "case_id") L.str = some c.caseId := L.str_eq _
    have hdocument : required (extractionNames.zip [.str c.caseId, .str c.document,
        scalarsValue c.fields.entries]) (text "document") L.str = some c.document := L.str_eq _
    have hfields : required (extractionNames.zip [.str c.caseId, .str c.document,
        scalarsValue c.fields.entries]) (text "fields") (fields L) = some c.fields :=
      fields_scalarsValue L c.fields
    simp only [fieldsOf_record, Option.bind_eq_bind, Option.bind_some, hid, hdocument, hfields]
    exact dif_pos c.fields_ne_nil
  stable c h := by
    refine (forall_mem_atoms_record (fun _ _ => trivial) le_rfl).mpr ?_
    simp only [List.forall_mem_cons]
    exact ⟨stable_str L _, stable_str L _, stable_scalars h, List.forall_mem_nil _⟩
  framed c n _ := by
    refine framed_record (by decide +kernel) le_rfl ?_
    simp only [List.forall_mem_cons]
    exact ⟨framed_str _ _, framed_str _ _, framed_scalars c.fields.nodup _, List.forall_mem_nil _⟩
  isObj c := ⟨_, rfl⟩

/-- The names of a retrieval case's fields. -/
def retrievalNames : List Str :=
  [text "case_id", text "question", text "incident_date", text "product_family", text "expected"]

/-- What is written under a retrieval case's names. -/
def retrievalValues (c : RetrievalCase) : List Value :=
  [.str c.caseId, .str c.question, .str c.incidentDate.isoformat, .str c.productFamily,
    .arr (c.expected.map clauseValue)]

/-- The shape of a retrieval case, which expects one clause at least. -/
def retrievalShape : Shape L RetrievalCase where
  name := text "RetrievalCase"
  fits v := do
    let fs ← fieldsOf retrievalNames v
    let caseId ← required fs (text "case_id") L.str
    let question ← required fs (text "question") L.str
    let incidentDate ← required fs (text "incident_date") L.date
    let productFamily ← required fs (text "product_family") L.str
    let expected ← required fs (text "expected") (items (clause L))
    -- And so is a retrieval case that expects nothing.
    if h : expected ≠ [] then some ⟨caseId, question, incidentDate, productFamily, expected, h⟩
    else none
  dump c := record retrievalNames (retrievalValues c)
  Good _ := True
  fits_dump c _ := by
    have hid : required (retrievalNames.zip (retrievalValues c)) (text "case_id") L.str =
        some c.caseId := L.str_eq _
    have hquestion : required (retrievalNames.zip (retrievalValues c)) (text "question") L.str =
        some c.question := L.str_eq _
    have hdate : required (retrievalNames.zip (retrievalValues c)) (text "incident_date")
        L.date = some c.incidentDate := L.date_eq _
    have hfamily : required (retrievalNames.zip (retrievalValues c)) (text "product_family")
        L.str = some c.productFamily := L.str_eq _
    have hexpected : required (retrievalNames.zip (retrievalValues c)) (text "expected")
        (items (clause L)) = some c.expected := items_clauses L c.expected
    simp only [fieldsOf_record, Option.bind_eq_bind, Option.bind_some, hid, hquestion, hdate,
      hfamily, hexpected]
    exact dif_pos c.expected_ne_nil
  stable c _ := by
    refine (forall_mem_atoms_record (fun _ _ => trivial) le_rfl).mpr ?_
    simp only [retrievalValues, List.forall_mem_cons]
    exact ⟨stable_str L _, stable_str L _, stable_str L _, stable_str L _,
      stable_array L fun a _ => stable_clause L a, List.forall_mem_nil _⟩
  framed c n _ := by
    refine framed_record (by decide +kernel) le_rfl ?_
    simp only [retrievalValues, List.forall_mem_cons]
    exact ⟨framed_str _ _, framed_str _ _, framed_str _ _, framed_str _ _,
      framed_array fun a _ => framed_clause _ a, List.forall_mem_nil _⟩
  isObj c := ⟨_, rfl⟩

/-- The names of a classification case's fields. -/
def classificationCaseNames : List Str :=
  [text "case_id", text "claim", text "fraud_positive", text "fraud_risk", text "severity",
    text "queue"]

/-- What is written under a classification case's names. -/
def classificationValues (c : ClassificationCase) : List Value :=
  [.str c.caseId, scalarsValue c.claim, .bool c.fraudPositive, .str c.fraudRisk, .str c.severity,
    .str c.queue]

/-- The shape of a classification case. -/
def classificationShape : Shape L ClassificationCase where
  name := text "ClassificationCase"
  fits v := do
    let fs ← fieldsOf classificationCaseNames v
    let caseId ← required fs (text "case_id") L.str
    let claim ← required fs (text "claim") (scalars L)
    let fraudPositive ← required fs (text "fraud_positive") L.bool
    let fraudRisk ← required fs (text "fraud_risk") L.str
    let severity ← required fs (text "severity") L.str
    let queue ← required fs (text "queue") L.str
    return ⟨caseId, claim, fraudPositive, fraudRisk, severity, queue⟩
  dump c := record classificationCaseNames (classificationValues c)
  -- A claim is read into a dictionary, so no key of it comes twice.
  Good c := (c.claim.map Prod.fst).Nodup ∧ ∀ e ∈ c.claim, Plain L e.2
  fits_dump c _ := by
    have hid : required (classificationCaseNames.zip (classificationValues c)) (text "case_id")
        L.str = some c.caseId := L.str_eq _
    have hclaim : required (classificationCaseNames.zip (classificationValues c)) (text "claim")
        (scalars L) = some c.claim := scalars_scalarsValue L c.claim
    have hpositive : required (classificationCaseNames.zip (classificationValues c))
        (text "fraud_positive") L.bool = some c.fraudPositive := L.bool_eq _
    have hrisk : required (classificationCaseNames.zip (classificationValues c))
        (text "fraud_risk") L.str = some c.fraudRisk := L.str_eq _
    have hseverity : required (classificationCaseNames.zip (classificationValues c))
        (text "severity") L.str = some c.severity := L.str_eq _
    have hqueue : required (classificationCaseNames.zip (classificationValues c)) (text "queue")
        L.str = some c.queue := L.str_eq _
    simp only [fieldsOf_record, Option.bind_eq_bind, Option.bind_some, hid, hclaim, hpositive,
      hrisk, hseverity, hqueue]
    rfl
  stable c h := by
    refine (forall_mem_atoms_record (fun _ _ => trivial) le_rfl).mpr ?_
    simp only [classificationValues, List.forall_mem_cons]
    exact ⟨stable_str L _, stable_scalars h.2, stable_bool L _, stable_str L _, stable_str L _,
      stable_str L _, List.forall_mem_nil _⟩
  framed c n h := by
    refine framed_record (by decide +kernel) le_rfl ?_
    simp only [classificationValues, List.forall_mem_cons]
    exact ⟨framed_str _ _, framed_scalars h.1 _, framed_bool _ _, framed_str _ _, framed_str _ _,
      framed_str _ _, List.forall_mem_nil _⟩
  isObj c := ⟨_, rfl⟩

/-! ### Answers -/

/-- The shape of an extraction's answer, which may leave out that it read nothing. -/
def extractedShape : Shape L ExtractionAnswer where
  name := text "ExtractionAnswer"
  fits v := do
    let fs ← fieldsOf [text "fields"] v
    -- Fields that are left out are none.
    let fields ← optional fs (text "fields") ⟨[], List.nodup_nil, nofun⟩ (fields L)
    return ⟨fields⟩
  dump a := record [text "fields"] [scalarsValue a.fields.entries]
  Good a := ∀ e ∈ a.fields.entries, Plain L e.2
  fits_dump a _ := by
    have hfields : optional ([text "fields"].zip [scalarsValue a.fields.entries]) (text "fields")
        ⟨[], List.nodup_nil, nofun⟩ (fields L) = some a.fields := fields_scalarsValue L a.fields
    simp only [fieldsOf_record, Option.bind_eq_bind, Option.bind_some, hfields]
    rfl
  stable a h := (forall_mem_atoms_record (fun _ _ => trivial) le_rfl).mpr
    (List.forall_mem_singleton.mpr (stable_scalars h))
  framed a n _ := framed_record (by decide +kernel) le_rfl
    (List.forall_mem_singleton.mpr (framed_scalars a.fields.nodup _))
  isObj a := ⟨_, rfl⟩

/-- The names of a retrieval answer's fields. -/
def retrievedNames : List Str :=
  [text "retrieved", text "cited"]

/-- What is written under a retrieval answer's names. -/
def retrievedValues (a : RetrievalAnswer) : List Value :=
  [.arr (a.retrieved.map clauseValue), .arr (a.cited.map clauseValue)]

/-- The shape of a retrieval's answer, which may leave out that there is nothing. -/
def retrievedShape : Shape L RetrievalAnswer where
  name := text "RetrievalAnswer"
  fits v := do
    let fs ← fieldsOf retrievedNames v
    let retrieved ← optional fs (text "retrieved") [] (items (clause L))
    let cited ← optional fs (text "cited") [] (items (clause L))
    return ⟨retrieved, cited⟩
  dump a := record retrievedNames (retrievedValues a)
  Good _ := True
  fits_dump a _ := by
    have hretrieved : optional (retrievedNames.zip (retrievedValues a)) (text "retrieved") []
        (items (clause L)) = some a.retrieved := items_clauses L a.retrieved
    have hcited : optional (retrievedNames.zip (retrievedValues a)) (text "cited") []
        (items (clause L)) = some a.cited := items_clauses L a.cited
    simp only [fieldsOf_record, Option.bind_eq_bind, Option.bind_some, hretrieved, hcited]
    rfl
  stable a _ := by
    refine (forall_mem_atoms_record (fun _ _ => trivial) le_rfl).mpr ?_
    simp only [retrievedValues, List.forall_mem_cons]
    exact ⟨stable_array L fun a _ => stable_clause L a, stable_array L fun a _ => stable_clause L a,
      List.forall_mem_nil _⟩
  framed a n _ := by
    refine framed_record (by decide +kernel) le_rfl ?_
    simp only [retrievedValues, List.forall_mem_cons]
    exact ⟨framed_array fun a _ => framed_clause _ a, framed_array fun a _ => framed_clause _ a,
      List.forall_mem_nil _⟩
  isObj a := ⟨_, rfl⟩

/-- The names of a classification answer's fields. -/
def scoredNames : List Str :=
  [text "fraud_score", text "fraud_risk", text "severity", text "queue"]

/-- What is written under a classification answer's names. -/
def scoredValues (a : ClassificationAnswer) : List Value :=
  [.float (L.written (some a.fraudScore)), .str a.fraudRisk, .str a.severity, .str a.queue]

/-- The shape of a classification's answer. -/
def scoredShape : Shape L ClassificationAnswer where
  name := text "ClassificationAnswer"
  fits v := do
    let fs ← fieldsOf scoredNames v
    let score ← required fs (text "fraud_score") L.number
    let fraudRisk ← required fs (text "fraud_risk") L.str
    let severity ← required fs (text "severity") L.str
    let queue ← required fs (text "queue") L.str
    -- What is no number is not between the bounds.
    let fraudScore ← score
    if h : 0 ≤ fraudScore ∧ fraudScore ≤ 1 then
      some ⟨fraudScore, fraudRisk, severity, queue, h⟩
    else none
  dump a := record scoredNames (scoredValues L a)
  Good a := L.Held (some a.fraudScore)
  fits_dump a h := by
    have hscore : required (scoredNames.zip (scoredValues L a)) (text "fraud_score") L.number =
        some (some a.fraudScore) := L.number_eq _ h
    have hrisk : required (scoredNames.zip (scoredValues L a)) (text "fraud_risk") L.str =
        some a.fraudRisk := L.str_eq _
    have hseverity : required (scoredNames.zip (scoredValues L a)) (text "severity") L.str =
        some a.severity := L.str_eq _
    have hqueue : required (scoredNames.zip (scoredValues L a)) (text "queue") L.str =
        some a.queue := L.str_eq _
    simp only [fieldsOf_record, Option.bind_eq_bind, Option.bind_some, hscore, hrisk, hseverity,
      hqueue]
    exact dif_pos a.bounded
  stable a h := by
    refine (forall_mem_atoms_record (fun _ _ => trivial) le_rfl).mpr ?_
    simp only [scoredValues, List.forall_mem_cons]
    exact ⟨List.forall_mem_singleton.mpr (L.written_stable _ h), stable_str L _, stable_str L _,
      stable_str L _, List.forall_mem_nil _⟩
  framed a n _ := by
    refine framed_record (by decide +kernel) le_rfl ?_
    simp only [scoredValues, List.forall_mem_cons]
    exact ⟨framed_float _ _, framed_str _ _, framed_str _ _, framed_str _ _, List.forall_mem_nil _⟩
  isObj a := ⟨_, rfl⟩

/-! ### A line of recorded answers -/

/-- The names of a recorded answer's fields. -/
def recordedNames : List Str :=
  [text "case_id", text "answer"]

/-- A dictionary, whatever is in it. -/
def dictionary : Value → Option Value
  | .obj fs => some (.obj fs)
  | _ => none

/-- What the model of a recorded answer takes. -/
def recordedAnswer (v : Value) : Option (RecordedAnswer Value) := do
  let fs ← fieldsOf recordedNames v
  let caseId ← required fs (text "case_id") L.str
  let answer ← required fs (text "answer") dictionary
  return ⟨caseId, answer⟩

/-- What is written of a recorded answer. -/
def lineValue (caseId : Str) (answer : Value) : Value :=
  record recordedNames [.str caseId, answer]

/-- The model of a recorded answer. -/
def recordedModel : Model Value (RecordedAnswer Value) where
  name := text "RecordedAnswer"
  validate v := match recordedAnswer L v with
    | some a => .ok a
    | none => .error (L.report (text "RecordedAnswer") v)

theorem recordedAnswer_lineValue (caseId : Str) (fs : List (Str × Value)) :
    recordedAnswer L (lineValue caseId (.obj fs)) = some ⟨caseId, .obj fs⟩ := by
  have hid : required (recordedNames.zip [.str caseId, .obj fs]) (text "case_id") L.str =
      some caseId := L.str_eq _
  have hanswer : required (recordedNames.zip [.str caseId, .obj fs]) (text "answer") dictionary =
      some (.obj fs) := rfl
  unfold recordedAnswer lineValue
  simp only [fieldsOf_record, Option.bind_eq_bind, Option.bind_some, hid, hanswer]
  rfl

theorem stable_recorded {L : Library} (caseId : Str) {answer : Value}
    (h : ∀ v ∈ answer.atoms, Value.Stable L.read v) :
    ∀ v ∈ (lineValue caseId answer).atoms, Value.Stable L.read v := by
  refine (forall_mem_atoms_record (fun _ _ => trivial) le_rfl).mpr ?_
  simp only [List.forall_mem_cons]
  exact ⟨stable_str L _, h, List.forall_mem_nil _⟩

theorem framed_recorded (caseId : Str) {answer : Value} {n : Nat} (h : Value.Framed n answer) :
    Value.Framed (n + 1) (lineValue caseId answer) := by
  refine framed_record (by decide +kernel) le_rfl ?_
  simp only [List.forall_mem_cons]
  exact ⟨framed_str _ _, h, List.forall_mem_nil _⟩

/-! ### Of each capability -/

/-- The cases of a capability's set. -/
def CaseFor : Capability → Type
  | .extraction => ExtractionCase
  | .retrieval => RetrievalCase
  | .classification => ClassificationCase

/-- The answers of a capability. -/
def AnswerFor : Capability → Type
  | .extraction => ExtractionAnswer
  | .retrieval => RetrievalAnswer
  | .classification => ClassificationAnswer

/-- A case's identifier. -/
def caseIdOf : ∀ {c : Capability}, CaseFor c → Str
  | .extraction => ExtractionCase.caseId
  | .retrieval => RetrievalCase.caseId
  | .classification => ClassificationCase.caseId

/-- The shape of a capability's cases. -/
def caseShape : ∀ c : Capability, Shape L (CaseFor c)
  | .extraction => extractionShape L
  | .retrieval => retrievalShape L
  | .classification => classificationShape L

/-- The shape of a capability's answers. -/
def answerShape : ∀ c : Capability, Shape L (AnswerFor c)
  | .extraction => extractedShape L
  | .retrieval => retrievedShape L
  | .classification => scoredShape L

/-- The models of a set's lines. -/
def setModels : SetModels Value where
  header := (headerShape L).model
  extraction := (extractionShape L).model
  retrieval := (retrievalShape L).model
  classification := (classificationShape L).model

end Shapes

end Evaluation

end ClaimTriage
