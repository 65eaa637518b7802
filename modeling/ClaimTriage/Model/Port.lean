import ClaimTriage.Theory.Loads
import ClaimTriage.Theory.Ordered
import ClaimTriage.Theory.Sha256
import Mathlib.Data.List.Lex

/-!
# The Model's Port

What asking the model is: a task, the text the model reads, and the shape the
answer must take. A call has one digest that says what it is, taken over these
three as one JSON text with its keys in order and its characters as they are.

The text determines the three (`Identity.dumps_inj`), so as long as no two of the
texts at hand collide a digest identifies the call it is of
(`Identity.digest_eq_iff`). It is taken over bytes, though, and a text with a
surrogate in it has none: what such a call is cannot be asked
(`callFingerprint_eq`).

## Main definitions

* `AnswerModel`: The shape an answer must take.
* `ModelCall`: One call into the model.
* `Raised`: What asking the model may raise.
* `Identity`: What a call is looked up by.
* `callFingerprint`: The digest of a call.
* `Apart`: No two texts of some calls have one digest.

## Theorems

* `Identity.dumps_inj`: The text determines the call.
* `callFingerprint_eq`: A call has a digest unless it holds a surrogate.
* `Identity.digest_eq_iff`: Where no texts collide, a digest determines the call.
-/

namespace ClaimTriage

namespace Port

open Theory Text Value

/-- What validating an answer may raise: what does not fit, or what a validator
    raises that is no validation error. -/
inductive Invalid where
  | validationError (doesNotFit : Str)
  | other

/-- The shape an answer must take: what it is called, and what becomes of an answer
    that is validated against it. -/
structure AnswerModel (α : Type) where
  moduleName : Str
  qualname : Str
  modelValidate : List (Str × Value) → Except Invalid α

/-- One call into the model: what is asked, what the answer must be, and what the
    model reads. -/
structure ModelCall (α : Type) where
  task : Str
  answerAs : AnswerModel α
  content : Str := []

/-- What asking the model may raise, `noFixture` being that nothing could answer and
    `unusableFixture` that something did and cannot be used. The last three are not
    the port's own: a text that cannot be encoded, a file that cannot be read as
    text, and what a validator raises. -/
inductive Raised where
  | lookupError (message : Str)
  | unusableFixture (message : Str)
  | noFixture (message : Str)
  | unicodeEncodeError
  | unreadable
  | other
  deriving DecidableEq

/-- An exception without what it says. -/
def Raised.wordless : Raised → Raised
  | lookupError _ => lookupError []
  | unusableFixture _ => unusableFixture []
  | noFixture _ => noFixture []
  | unicodeEncodeError => unicodeEncodeError
  | unreadable => unreadable
  | other => other

/-- The shape a call asks for, named the way a recorded answer records it. -/
def ModelCall.schema {α : Type} (call : ModelCall α) : Str :=
  call.answerAs.moduleName ++ text "." ++ call.answerAs.qualname

/-- A text as the bytes it is sent and hashed as. -/
def encodeUtf8 (s : Str) : Except Raised (List Nat) :=
  if Encodable s then .ok (encode s) else .error .unicodeEncodeError

/-- What a call is looked up by: what it asks, what it reads, and the shape of the
    answer. -/
structure Identity where
  task : Str
  content : Str
  schema : Str
  deriving DecidableEq

namespace Identity

/-- The fields a digest is taken over. -/
def fields (identity : Identity) : List (Str × Value) :=
  [(text "task", .str identity.task), (text "content", .str identity.content),
    (text "schema", .str identity.schema)]

/-- The text of them: keys in order, no blanks, characters as they are. -/
def dumps (identity : Identity) : Str :=
  Value.dumps compact 0 (.obj (Ordered.sortBy Prod.fst identity.fields))

/-- The digest of the text. -/
def digest (identity : Identity) : Str :=
  Sha256.hexdigest (encode identity.dumps)

/-- None of the three holds a surrogate. -/
def Encodable (identity : Identity) : Prop :=
  Value.Encodable identity.task ∧ Value.Encodable identity.content ∧
    Value.Encodable identity.schema

instance (identity : Identity) : Decidable identity.Encodable :=
  inferInstanceAs (Decidable (_ ∧ _ ∧ _))

end Identity

/-- The identity of one call, as one digest. -/
def callFingerprint (task content schema : Str) : Except Raised Str := do
  let identity := Identity.dumps ⟨task, content, schema⟩
  return Sha256.hexdigest (← encodeUtf8 identity)

/-- What a call is looked up by. -/
def ModelCall.identity {α : Type} (call : ModelCall α) : Identity :=
  ⟨call.task, call.content, call.schema⟩

/-- What a call is, as one digest. -/
def ModelCall.fingerprint {α : Type} (call : ModelCall α) : Except Raised Str :=
  callFingerprint call.task call.content call.schema

/-- No two different texts of these calls have one digest, those that have bytes. -/
def Apart (identities : List Identity) : Prop :=
  ∀ a ∈ identities, ∀ b ∈ identities, a.Encodable → b.Encodable →
    a.digest = b.digest → a.dumps = b.dumps

instance (identities : List Identity) : Decidable (Apart identities) :=
  inferInstanceAs (Decidable (∀ a ∈ identities, ∀ b ∈ identities, a.Encodable → b.Encodable →
    a.digest = b.digest → a.dumps = b.dumps))

namespace Identity

/-- In order of their keys, the shape stands between the other two. -/
theorem sortBy_fields (identity : Identity) :
    Ordered.sortBy Prod.fst identity.fields =
      [(text "content", .str identity.content), (text "schema", .str identity.schema),
        (text "task", .str identity.task)] := by
  have htc : ¬ text "task" ≤ text "content" := by decide +kernel
  have hts : ¬ text "task" ≤ text "schema" := by decide +kernel
  have hcs : text "content" ≤ text "schema" := by decide +kernel
  simp only [fields, Ordered.sortBy, List.insertionSort_cons, List.insertionSort_nil,
    List.orderedInsert_cons, List.orderedInsert_nil, htc, hts, hcs, if_true, if_false]

theorem sound_atoms {read : Str → Str} (identity : Identity) :
    ∀ a ∈ atoms (.obj (Ordered.sortBy Prod.fst identity.fields)), Sound read a := by
  rw [sortBy_fields]
  simp only [atoms, atomsFields, List.cons_append, List.nil_append, List.forall_mem_cons]
  exact ⟨trivial, trivial, trivial, trivial, trivial, trivial, List.forall_mem_nil _⟩

theorem framed (identity : Identity) :
    Framed 1 (.obj (Ordered.sortBy Prod.fst identity.fields)) := by
  rw [sortBy_fields]
  have hkeys : [text "content", text "schema", text "task"].Nodup := by decide
  exact ⟨hkeys, trivial, trivial, trivial, trivial⟩

/-- The text determines the call. -/
theorem dumps_inj {a b : Identity} (h : a.dumps = b.dumps) : a = b := by
  have hvalue := @Value.dumps_inj id compact _ _ 1 a.sound_atoms b.sound_atoms a.framed b.framed h
  rw [sortBy_fields, sortBy_fields] at hvalue
  simp only [Value.obj.injEq, List.cons.injEq, Prod.mk.injEq, Value.str.injEq, true_and,
    and_true] at hvalue
  rcases a with ⟨task, content, schema⟩
  rcases hvalue with ⟨rfl, rfl, rfl⟩
  rfl

/-- The text can be encoded exactly if the three can. -/
theorem encodable_dumps (identity : Identity) :
    Value.Encodable identity.dumps ↔ identity.Encodable := by
  constructor
  · intro h
    have hin : ∀ s, Value.str s ∈ atoms (.obj (Ordered.sortBy Prod.fst identity.fields)) →
        Value.Encodable s := by
      intro s hs c hc
      by_cases hplain : 0x7F ≤ c.val
      · -- What is not ASCII stands in the text as it is.
        exact h c (mem_dumps compact hc hplain 0 _ hs)
      · simp only [IsHigh, IsLow]
        omega
    rw [sortBy_fields] at hin
    simp only [atoms, atomsFields, List.cons_append, List.nil_append, List.mem_cons,
      Value.str.injEq] at hin
    exact ⟨hin _ (by simp), hin _ (by simp), hin _ (by simp)⟩
  · rintro ⟨htask, hcontent, hschema⟩
    have hkeys : ∀ name ∈ [text "content", text "schema", text "task"], Value.Encodable name := by
      decide
    refine forall_mem_dumps (P := fun c => ¬ IsHigh c ∧ ¬ IsLow c) ?_ compact_all 0 _ ?_
    · intro c _ hc
      simp only [IsHigh, IsLow]
      omega
    · rw [sortBy_fields]
      simp only [List.forall_mem_cons] at hkeys
      simp only [atoms, atomsFields, List.cons_append, List.nil_append, List.forall_mem_cons]
      exact ⟨fun c hc _ => hkeys.1 c hc, fun c hc _ => hcontent c hc,
        fun c hc _ => hkeys.2.1 c hc, fun c hc _ => hschema c hc,
        fun c hc _ => hkeys.2.2.1 c hc, fun c hc _ => htask c hc, List.forall_mem_nil _⟩

/-- Where no texts collide, a digest determines the call. -/
theorem digest_eq_iff {identities : List Identity} (hapart : Apart identities) {a b : Identity}
    (ha : a ∈ identities) (hb : b ∈ identities) (hea : a.Encodable) (heb : b.Encodable) :
    a.digest = b.digest ↔ a = b :=
  ⟨fun h => dumps_inj (hapart a ha b hb hea heb h), fun h => h ▸ rfl⟩

end Identity

theorem Apart.mono {identities others : List Identity} (h : Apart others)
    (hsub : identities ⊆ others) : Apart identities :=
  fun a ha b hb => h a (hsub ha) b (hsub hb)

/-- A call has a digest, unless it holds a surrogate. -/
theorem callFingerprint_eq (identity : Identity) :
    callFingerprint identity.task identity.content identity.schema =
      if identity.Encodable then .ok identity.digest else .error .unicodeEncodeError := by
  unfold callFingerprint encodeUtf8
  by_cases h : identity.Encodable
  · simp only [h, identity.encodable_dumps.mpr h, if_true]
    rfl
  · simp only [h, mt identity.encodable_dumps.mp h, if_false]
    rfl

end Port

end ClaimTriage
