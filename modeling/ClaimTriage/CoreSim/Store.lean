import ClaimTriage.Contract.Models
import ClaimTriage.Theory.Sha256

/-!
# The Surrounding Systems' Store

The tables the surrounding systems own, and what each of their four writes
does to them when nothing else is going on.

Every write runs under a key. A key that has answered a request before answers
the same request again with what it answered then, and refuses any other; a
fresh one has the write performed, and records beside it what the request was
and what it was answered. Performing a write is two statements, one that looks
up what the write is about and one that writes, and `Draft` is what the second
one takes from the first.

Policies, claims and keys are looked up by their primary keys and are functions
here; documents and parties are only ever added to and are lists. A row is what
the insert gave it, and reading one is where its columns have their say.

## Main definitions

* `Tables`, `Write`: The rows, and one statement that writes.
* `Call`, `Request`: A write with its arguments, and its key.
* `requestFingerprint`, `fingerprint`: What identifies a write.
* `check`, `Draft.write`: The two statements that perform one.
* `replayed`: The answer a key already gave.
* `idempotent`: One write alone, once per key.
* `Done`: What it answers and leaves, case by case.

## Theorems

* `check_iff`: What the first statement finds, case by case.
* `readClaim_eq`: A claim is read back with its amount to two places.
* `eq_of_validate`: What a key recorded is read back as what it recorded, or
  not at all.
-/

namespace ClaimTriage

open Theory Text Calendar

namespace CoreSim

/-! ### Rows -/

/-- What a key recorded: the request it came with, and what it answered. -/
structure KeyRow where
  fingerprint : Str
  response : Json
  createdAt : Moment

/-- The rows of the systems' tables, each as the insert gave it. -/
structure Tables where
  policies : Str → Option Policy
  claims : Uuid → Option Claim
  claimDocuments : List ClaimDocument
  claimParties : List ClaimParty
  idempotencyKeys : Str → Option KeyRow

/-- The policies the systems hold from the start. -/
def seedPolicies : List Policy :=
  [⟨text "SIM-2026-0001", text "Auto & pohoda",
      ⟨2026, 1, 1, Date.newYear.year_valid, Date.newYear.month_valid, Date.newYear.day_valid⟩⟩,
    ⟨text "SIM-2025-0442", text "Auto & pohoda", ⟨2025, 6, 1, by decide, by decide, by decide⟩⟩,
    ⟨text "SIM-2026-0107", text "Cestovné poistenie",
      ⟨2026, 2, 1, Date.newYear.year_valid, by decide, by decide⟩⟩]

/-- The tables once the schema is applied and the policies are seeded. -/
def Tables.seeded : Tables where
  policies number := seedPolicies.find? fun policy => policy.policyNumber = number
  claims _ := none
  claimDocuments := []
  claimParties := []
  idempotencyKeys _ := none

/-- One statement that writes. An update carries the claim it leaves the status
    and the history of. -/
inductive Write where
  | claim (claim : Claim)
  | status (claimId : Uuid) (updated : Claim)
  | document (document : ClaimDocument)
  | party (party : ClaimParty)
  | key (key : Str) (row : KeyRow)

/-- A row with another claim's status and history. -/
def withStatus (updated row : Claim) : Claim :=
  { row with status := updated.status, statusHistory := updated.statusHistory,
             statusHistoryValid := updated.statusHistoryValid }

/-- The tables after a statement that writes. -/
def Tables.apply (t : Tables) : Write → Tables
  | .claim claim => { t with claims := Function.update t.claims claim.claimId (some claim) }
  | .status claimId updated =>
    { t with claims :=
        Function.update t.claims claimId ((t.claims claimId).map (withStatus updated)) }
  | .document document => { t with claimDocuments := t.claimDocuments ++ [document] }
  | .party party => { t with claimParties := t.claimParties ++ [party] }
  | .key key row => { t with idempotencyKeys := Function.update t.idempotencyKeys key (some row) }

/-- The columns take what a write gives them. A history is JSON a column always
    takes, so an update is never refused for it. -/
def Write.Storable : Write → Prop
  | .claim row => Theory.Storable row.policyNumber
  | .status _ _ => True
  | .document row => Theory.Storable row.documentType ∧ Theory.Storable row.filename
  | .party _ => True
  | .key name row => Theory.Storable name ∧ (jsonb.apply row.response).isSome

instance (w : Write) : Decidable w.Storable := by
  cases w <;> simp only [Write.Storable] <;> infer_instance

/-- No row there is has the primary key a write would insert. -/
def Tables.Accepts (t : Tables) : Write → Prop
  | .claim claim => t.claims claim.claimId = none
  | .status _ _ => True
  | .document document => ∀ d ∈ t.claimDocuments, d.documentId ≠ document.documentId
  | .party party => ∀ p ∈ t.claimParties, p.partyId ≠ party.partyId
  | .key key _ => t.idempotencyKeys key = none

instance (t : Tables) (w : Write) : Decidable (t.Accepts w) :=
  match w with
  | .claim claim => decidable_of_iff ((t.claims claim.claimId).isNone) Option.isNone_iff_eq_none
  | .status _ _ => isTrue trivial
  | .document document =>
    (List.decidableBAll _ _ :
      Decidable (∀ d ∈ t.claimDocuments, d.documentId ≠ document.documentId))
  | .party party =>
    (List.decidableBAll _ _ : Decidable (∀ p ∈ t.claimParties, p.partyId ≠ party.partyId))
  | .key key _ =>
    decidable_of_iff ((t.idempotencyKeys key).isNone) Option.isNone_iff_eq_none

/-- What is taken until a transaction ends: the entries of the unique indexes,
    and a claim's row, which a status report holds and whatever refers to the
    claim shares. -/
inductive Resource where
  | claimKey (claimId : Uuid)
  | claimRow (claimId : Uuid)
  | documentKey (documentId : Uuid)
  | partyKey (partyId : Uuid)
  | idempotencyKey (key : Str)
  deriving DecidableEq

/-- What a write takes: the index entry of the row it inserts, or the row it
    updates. -/
def Write.resource : Write → Resource
  | claim row => .claimKey row.claimId
  | status claimId _ => .claimRow claimId
  | document row => .documentKey row.documentId
  | party row => .partyKey row.partyId
  | key name _ => .idempotencyKey name

/-- The claim the row a write inserts refers to, by the tables' foreign keys. -/
def Write.references : Write → Option Uuid
  | document row => some row.claimId
  | party row => some row.claimId
  | claim _ | status _ _ | key _ _ => none

/-! ### Calls -/

/-- One of the four writes, with its arguments. -/
inductive Call where
  | create (submission : ClaimSubmission)
  | recordStatus (claimId : Uuid) (status : ClaimStatus)
  | attachDocument (claimId : Uuid) (attachment : ClaimDocumentSubmission)
  | recordParty (claimId : Uuid) (registration : ClaimPartySubmission)
  deriving DecidableEq

/-- A write and the key it runs under. -/
structure Request where
  call : Call
  key : Str
  deriving DecidableEq

/-- What a write answers. -/
inductive Answer where
  | claim (claim : Claim)
  | document (document : ClaimDocument)
  | party (party : ClaimParty)
  deriving DecidableEq

/-- What a call raises: the three refusals of its own, and what the driver, the
    database or a model raises through it. -/
inductive Raised where
  | claimNotFound (claimId : Uuid)
  | policyNotFound (policyNumber : Str)
  | idempotencyKeyReuse (key : Str)
  | dataError
  | uniqueViolation
  | operationalError
  | validationError
  deriving DecidableEq

/-- The message of a refusal. -/
def Raised.message : Raised → Option Str
  | claimNotFound claimId => some (text "unknown claim " ++ claimId.text)
  | policyNotFound policyNumber => some (text "unknown policy " ++ policyNumber)
  | idempotencyKeyReuse key =>
    some (text "Idempotency-Key " ++ key ++ text " was already used for a different request")
  | _ => none

/-! ### What identifies a write -/

/-- The fields of a dumped model. -/
def dumped {α : Type} (wire : Codec α Json) (a : α) : List (Str × Json) :=
  match wire.encode a with
  | .obj fields => fields
  | _ => []

/-- What identifies one write: the operation, and the request that carried
    it. -/
def requestFingerprint (operation : Str) (request : List (Str × Json)) : Str :=
  Sha256.hexdigest (encode ((Json.obj [(text "operation", .str operation),
    (text "request", .obj request)]).sortKeys.dumps true))

/-- What identifies a call's write. -/
def fingerprint : Call → Str
  | .create submission =>
    requestFingerprint (text "create_claim") (dumped ClaimSubmission.wire submission)
  | .recordStatus claimId status =>
    requestFingerprint (text "record_claim_status")
      [(text "claim_id", .str claimId.text), (text "status", .str status.value)]
  | .attachDocument claimId attachment =>
    requestFingerprint (text "attach_claim_document")
      ((text "claim_id", .str claimId.text) :: dumped ClaimDocumentSubmission.wire attachment)
  | .recordParty claimId registration =>
    requestFingerprint (text "record_claim_party")
      ((text "claim_id", .str claimId.text) :: dumped ClaimPartySubmission.wire registration)

/-! ### Performing a write -/

/-- A claim with its amount as the column answers with it. -/
def stored (claim : Claim) : Claim :=
  { claim with claimAmountEur := claim.claimAmountEur.stored }

/-- The claim the columns of a row answer with. -/
def readClaim (row : Claim) : Option Claim :=
  ((jsonb.apply (ClaimStatusTransition.wire.array.encode row.statusHistory)).bind
    ClaimStatusTransition.wire.array.decode).bind fun history =>
      if h : history ≠ [] then
        some { stored row with statusHistory := history, statusHistoryValid := h }
      else none

/-- The claim a look-up by identifier answers with. -/
def claimOf (claimId : Uuid) (row : Option Claim) : Except Raised Claim :=
  match row with
  | none => .error (.claimNotFound claimId)
  | some row =>
    match readClaim row with
    | none => .error .validationError
    | some claim => .ok claim

/-- The claim the systems hold. -/
def read (t : Tables) (claimId : Uuid) : Except Raised Claim :=
  claimOf claimId (t.claims claimId)

/-- What a write has left to do once what it is about is looked up. -/
inductive Draft where
  | claim (submission : ClaimSubmission)
  | transition (claimId : Uuid) (claim : Claim) (status : ClaimStatus)
  | document (claimId : Uuid) (attachment : ClaimDocumentSubmission)
  | party (claimId : Uuid) (registration : ClaimPartySubmission)

/-- The claim a write names is held. -/
def requireClaim (t : Tables) (claimId : Uuid) : Except Raised Unit :=
  if (t.claims claimId).isSome then .ok () else .error (.claimNotFound claimId)

/-- The first statement of a write: what it is about is held. -/
def check (t : Tables) : Call → Except Raised Draft
  | .create submission =>
    if Theory.Storable submission.policyNumber then
      if (t.policies submission.policyNumber).isSome then .ok (.claim submission)
      else .error (.policyNotFound submission.policyNumber)
    else .error .dataError
  | .recordStatus claimId status =>
    (claimOf claimId (t.claims claimId)).map fun claim => .transition claimId claim status
  | .attachDocument claimId attachment =>
    (requireClaim t claimId).map fun _ => .document claimId attachment
  | .recordParty claimId registration =>
    (requireClaim t claimId).map fun _ => .party claimId registration

/-- The claim the systems hold once they have taken a submission in, and its
    first status. -/
def received (submission : ClaimSubmission) (id : Uuid) (now : Moment) : Claim where
  claimId := id
  policyNumber := submission.policyNumber
  incidentDate := submission.incidentDate
  claimAmountEur := submission.claimAmountEur
  status := .received
  statusHistory := [⟨.received, now⟩]
  statusHistoryValid := List.cons_ne_nil _ _

/-- A claim with one more status appended to its history. -/
def transitioned (claim : Claim) (status : ClaimStatus) (now : Moment) : Claim :=
  { claim with status := status, statusHistory := claim.statusHistory ++ [⟨status, now⟩],
               statusHistoryValid := List.append_ne_nil_of_right_ne_nil _ (List.cons_ne_nil _ _) }

/-- The second statement of a write, under a fresh identifier and the clock's
    time, and what the write answers. -/
def Draft.write (id : Uuid) (now : Moment) : Draft → Write × Answer
  | claim submission =>
    let row := received submission id now
    (.claim row, .claim row)
  | transition claimId current status =>
    let updated := transitioned current status now
    (.status claimId updated, .claim updated)
  | document claimId attachment =>
    let row : ClaimDocument := ⟨id, claimId, attachment.documentType, attachment.filename, now⟩
    (.document row, .document row)
  | party claimId registration =>
    let row : ClaimParty := ⟨id, claimId, registration.role, now⟩
    (.party row, .party row)

/-! ### Once per key -/

/-- An answer as it is dumped. -/
def Answer.modelDump : Answer → Json
  | claim answered => Claim.wire.encode answered
  | document answered => ClaimDocument.wire.encode answered
  | party answered => ClaimParty.wire.encode answered

/-- An answer validated as the model a call answers with. -/
def Call.validate : Call → Json → Option Answer
  | .create _, j | .recordStatus _ _, j => (Claim.wire.decode j).map .claim
  | .attachDocument _ _, j => (ClaimDocument.wire.decode j).map .document
  | .recordParty _ _, j => (ClaimParty.wire.decode j).map .party

/-- The row a key is recorded in. -/
def keyRow (request : Request) (answer : Answer) (now : Moment) : KeyRow where
  fingerprint := fingerprint request.call
  response := answer.modelDump
  createdAt := now

/-- The answer a key already gave, or the refusal that says it answered another
    request. -/
def replayed (remembered : KeyRow) (request : Request) : Except Raised Answer :=
  if remembered.fingerprint ≠ fingerprint request.call then
    .error (.idempotencyKeyReuse request.key)
  else
    match (jsonb.apply remembered.response).bind request.call.validate with
    | some answer => .ok answer
    | none => .error .validationError

/-- A statement that writes, where nobody else writes. -/
def execute (t : Tables) (w : Write) : Except Raised Tables :=
  if w.Storable then if t.Accepts w then .ok (t.apply w) else .error .uniqueViolation
  else .error .dataError

/-- One write alone, once per key: what it answers and the tables it leaves.
    A write that raises leaves the tables it found. -/
def idempotent (t : Tables) (request : Request) (id : Uuid) (now keyedAt : Moment) :
    Except Raised (Answer × Tables) :=
  if Theory.Storable request.key then
    match t.idempotencyKeys request.key with
    | some remembered => (replayed remembered request).map fun answer => (answer, t)
    | none =>
      (check t request.call).bind fun draft =>
        let (w, answer) := draft.write id now
        (execute t w).bind fun written =>
          (execute written (.key request.key (keyRow request answer keyedAt))).map
            fun keyed => (answer, keyed)
  else .error .dataError

/-! ### What is read back -/

/-- A claim is read back with its amount to two places. -/
theorem readClaim_eq (row : Claim) : readClaim row = some (stored row) := by
  rcases reads_history (F := jsonb) row.statusHistory with ⟨kept, hkept, hread⟩
  simp only [readClaim, hkept, Option.bind_some, hread]
  exact dif_pos row.statusHistoryValid

theorem claimOf_some (claimId : Uuid) (row : Claim) :
    claimOf claimId (some row) = .ok (stored row) := by
  simp only [claimOf, readClaim_eq]

/-- The texts of an answer are ones a text column takes. -/
def Answer.Storable : Answer → Prop
  | claim answered => Theory.Storable answered.policyNumber
  | document answered =>
    Theory.Storable answered.documentType ∧ Theory.Storable answered.filename
  | party _ => True

/-- The call answers with the model the answer is of. -/
def Call.Answers : Call → Answer → Prop
  | .create _, .claim _ | .recordStatus _ _, .claim _ => True
  | .attachDocument _ _, .document _ => True
  | .recordParty _ _, .party _ => True
  | _, _ => False

/-- The fields of the model a call answers with. -/
def Call.fields : Call → List Str
  | .create _ | .recordStatus _ _ => Claim.fields
  | .attachDocument _ _ => ClaimDocument.fields
  | .recordParty _ _ => ClaimParty.fields

/-- The fields of the model an answer is of. -/
def Answer.fields : Answer → List Str
  | claim _ => Claim.fields
  | document _ => ClaimDocument.fields
  | party _ => ClaimParty.fields

/-- A model has a field that the other models lack. -/
theorem exists_field {call : Call} {a : Answer} (h : ¬ call.Answers a) :
    ∃ name ∈ a.fields, name ∉ call.fields := by
  -- Each kind of answer has a field that the other two lack.
  have hnumber : text "policy_number" ∈ Claim.fields ∧
      text "policy_number" ∉ ClaimDocument.fields ∧ text "policy_number" ∉ ClaimParty.fields := by
    decide
  have hfilename : text "filename" ∈ ClaimDocument.fields ∧
      text "filename" ∉ Claim.fields ∧ text "filename" ∉ ClaimParty.fields := by decide
  have hrole : text "role" ∈ ClaimParty.fields ∧
      text "role" ∉ Claim.fields ∧ text "role" ∉ ClaimDocument.fields := by decide
  cases a with
  | claim answered =>
      refine ⟨_, hnumber.1, ?_⟩
      cases call with
      | create | recordStatus => exact absurd trivial h
      | attachDocument => exact hnumber.2.1
      | recordParty => exact hnumber.2.2
  | document answered =>
      refine ⟨_, hfilename.1, ?_⟩
      cases call with
      | attachDocument => exact absurd trivial h
      | create | recordStatus => exact hfilename.2.1
      | recordParty => exact hfilename.2.2
  | party answered =>
      refine ⟨_, hrole.1, ?_⟩
      cases call with
      | recordParty => exact absurd trivial h
      | create | recordStatus => exact hrole.2.1
      | attachDocument => exact hrole.2.2

/-- What a model's codec reads as a value is an object with the model's
    fields. -/
theorem exists_record {α β : Type} {names : List Str} {c : Codec β (List Json)}
    {hnodup : names.Nodup} {hlen : ∀ b, names.length = (c.encode b).length} {d : Codec α β}
    {j : Json} {a : α} (h : ((Codec.record names c hnodup hlen).comp d).decode j = some a) :
    ∃ values, Json.record names j = some values := by
  rcases Option.bind_eq_some_iff.mp h with ⟨b, hb, _⟩
  rcases Option.bind_eq_some_iff.mp hb with ⟨values, hvalues, _⟩
  exact ⟨values, hvalues⟩

/-- What validates as a call's answer is an object with the fields of the model
    it answers with. -/
theorem record_of_validate {call : Call} {j : Json} {a : Answer} (h : call.validate j = some a) :
    ∃ values, Json.record call.fields j = some values := by
  cases call <;>
    · rcases Option.map_eq_some_iff.mp h with ⟨b, hb, _⟩
      exact exists_record hb

/-- An answer is dumped to JSON a column keeps and its own model reads back. -/
theorem reads_modelDump {a : Answer} (h : a.Storable) :
    ∃ kept, jsonb.apply a.modelDump = some kept ∧
      (∃ values, Json.record a.fields kept = some values) ∧
      ∀ call : Call, call.Answers a → call.validate kept = some a := by
  cases a with
  | claim answered =>
      rcases Claim.reads (jsonb_text_of_storable h) with ⟨kept, hkept, hread⟩
      refine ⟨kept, hkept, exists_record hread, fun call hcall => ?_⟩
      cases call with
      | create | recordStatus => exact Option.map_eq_some_iff.mpr ⟨answered, hread, rfl⟩
      | attachDocument | recordParty => exact hcall.elim
  | document answered =>
      rcases ClaimDocument.reads (jsonb_text_of_storable h.1) (jsonb_text_of_storable h.2) with
        ⟨kept, hkept, hread⟩
      refine ⟨kept, hkept, exists_record hread, fun call hcall => ?_⟩
      cases call with
      | attachDocument => exact Option.map_eq_some_iff.mpr ⟨answered, hread, rfl⟩
      | create | recordStatus | recordParty => exact hcall.elim
  | party answered =>
      rcases ClaimParty.reads (F := jsonb) answered with ⟨kept, hkept, hread⟩
      refine ⟨kept, hkept, exists_record hread, fun call hcall => ?_⟩
      cases call with
      | recordParty => exact Option.map_eq_some_iff.mpr ⟨answered, hread, rfl⟩
      | create | recordStatus | attachDocument => exact hcall.elim

/-- What a key recorded is read back as what it recorded, or not at all. -/
theorem eq_of_validate {a b : Answer} {call : Call} (h : a.Storable)
    (hread : (jsonb.apply a.modelDump).bind call.validate = some b) : b = a := by
  rcases reads_modelDump h with ⟨kept, hkept, ⟨values, hvalues⟩, hanswers⟩
  rw [hkept, Option.bind_some] at hread
  by_cases hcall : call.Answers a
  · rw [hanswers call hcall, Option.some.injEq] at hread
    exact hread.symm
  · -- Another model would have to lack a field the object has.
    rcases exists_field hcall with ⟨name, hname, hnot⟩
    rcases record_of_validate hread with ⟨values', hvalues'⟩
    rw [Json.record_eq_none hvalues hname hnot] at hvalues'
    cases hvalues'

/-- A key answers a call exactly if it recorded the call's request, and with
    what it recorded. -/
theorem replayed_eq_ok {remembered : KeyRow} {request : Request} {answer : Answer} :
    replayed remembered request = .ok answer ↔
      remembered.fingerprint = fingerprint request.call ∧
        (jsonb.apply remembered.response).bind request.call.validate = some answer := by
  unfold replayed
  by_cases hprint : remembered.fingerprint = fingerprint request.call
  · rw [if_neg (not_not_intro hprint)]
    cases hread : (jsonb.apply remembered.response).bind request.call.validate with
    | none => simp only [reduceCtorEq, and_false]
    | some b => simp only [Except.ok.injEq, hprint, Option.some.injEq, true_and]
  · rw [if_pos hprint]
    simp only [reduceCtorEq, hprint, false_and]

/-! ### What a look-up finds -/

/-- What a call finds when it looks up what it is about. -/
inductive Finds (t : Tables) : Call → Draft → Prop
  | create {submission : ClaimSubmission} : Theory.Storable submission.policyNumber →
      (t.policies submission.policyNumber).isSome →
      Finds t (.create submission) (.claim submission)
  | recordStatus {claimId : Uuid} {status : ClaimStatus} {row : Claim} :
      t.claims claimId = some row →
      Finds t (.recordStatus claimId status) (.transition claimId (stored row) status)
  | attachDocument {claimId : Uuid} {attachment : ClaimDocumentSubmission} :
      (t.claims claimId).isSome →
      Finds t (.attachDocument claimId attachment) (.document claimId attachment)
  | recordParty {claimId : Uuid} {registration : ClaimPartySubmission} :
      (t.claims claimId).isSome →
      Finds t (.recordParty claimId registration) (.party claimId registration)

/-- The first statement of a write succeeds exactly with what it finds. -/
theorem check_iff {t : Tables} {call : Call} {draft : Draft} :
    check t call = .ok draft ↔ Finds t call draft := by
  -- All but a submission look for the claim they are about.
  have hrequire : ∀ id, requireClaim t id = .ok () ↔ (t.claims id).isSome := by
    intro id
    unfold requireClaim
    by_cases hsome : (t.claims id).isSome
    · rw [if_pos hsome]
      exact ⟨fun _ => hsome, fun _ => rfl⟩
    · rw [if_neg hsome]
      exact ⟨nofun, fun h => absurd h hsome⟩
  constructor
  · intro h
    cases call with
    | create submission =>
        simp only [check] at h
        split at h
        · rename_i hstorable
          split at h
          · rename_i hpolicy
            cases h
            exact .create hstorable hpolicy
          · cases h
        · cases h
    | recordStatus claimId status =>
        cases hrow : t.claims claimId with
        | none => simp only [check, hrow, claimOf, Except.map, reduceCtorEq] at h
        | some row =>
            simp only [check, hrow, claimOf_some] at h
            cases h
            exact .recordStatus hrow
    | attachDocument claimId attachment =>
        cases hr : requireClaim t claimId with
        | ok _ =>
            simp only [check, hr] at h
            cases h
            exact .attachDocument ((hrequire claimId).mp hr)
        | error e => simp only [check, hr, Except.map, reduceCtorEq] at h
    | recordParty claimId registration =>
        cases hr : requireClaim t claimId with
        | ok _ =>
            simp only [check, hr] at h
            cases h
            exact .recordParty ((hrequire claimId).mp hr)
        | error e => simp only [check, hr, Except.map, reduceCtorEq] at h
  · intro h
    cases h with
    | create hstorable hpolicy => simp only [check, hstorable, hpolicy, if_true]
    | recordStatus hrow => simp only [check, hrow, claimOf_some]; rfl
    | attachDocument hsome => simp only [check, (hrequire _).mpr hsome]; rfl
    | recordParty hsome => simp only [check, (hrequire _).mpr hsome]; rfl

/-! ### What a write leaves alone -/

theorem policies_apply (t : Tables) (w : Write) : (t.apply w).policies = t.policies := by
  cases w <;> rfl

/-- A claim another write is not about stays as it is. -/
theorem claims_apply_of_ne {t : Tables} {w : Write} {id : Uuid}
    (hinsert : ∀ row, w = .claim row → row.claimId ≠ id)
    (hupdate : ∀ updated, w ≠ .status id updated) : (t.apply w).claims id = t.claims id := by
  cases w with
  | claim row => exact Function.update_of_ne (hinsert row rfl).symm _ _
  | status claimId updated =>
      have hne : id ≠ claimId := by
        rintro rfl
        exact hupdate updated rfl
      exact Function.update_of_ne hne _ _
  | document | party | key => rfl

/-- No claim is ever taken away. -/
theorem isSome_claims_apply {t : Tables} {id : Uuid} (w : Write) (h : (t.claims id).isSome) :
    ((t.apply w).claims id).isSome := by
  cases w with
  | claim row =>
      -- A row that is put in its own place is still there.
      by_cases hid : id = row.claimId
      · subst hid
        simp only [Tables.apply, Function.update_self, Option.isSome_some]
      · have hsame : (t.apply (.claim row)).claims id = t.claims id := by
          refine claims_apply_of_ne ?_ fun _ heq => by cases heq
          rintro row' ⟨⟩ heq
          exact hid heq.symm
        rw [hsame]
        exact h
  | status claimId updated =>
      by_cases hid : id = claimId
      · subst hid
        simp only [Tables.apply, Function.update_self, Option.isSome_map, h]
      · have hsame : (t.apply (.status claimId updated)).claims id = t.claims id := by
          refine claims_apply_of_ne (fun _ heq => by cases heq) ?_
          rintro updated' ⟨⟩
          exact hid rfl
        rw [hsame]
        exact h
  | document | party | key => exact h

/-- What a call found is still so after a write that leaves its claim alone. -/
theorem Finds.apply {t : Tables} {w : Write} {call : Call} {draft : Draft}
    (h : Finds t call draft) (haccepts : t.Accepts w)
    (hupdate : ∀ id status updated, call = .recordStatus id status → w ≠ .status id updated) :
    Finds (t.apply w) call draft := by
  cases h with
  | create hstorable hpolicy => exact .create hstorable (by rwa [policies_apply])
  | @recordStatus claimId status row hrow =>
      refine .recordStatus ?_
      rw [← hrow]
      refine claims_apply_of_ne ?_ fun updated => hupdate claimId status updated rfl
      -- A claim that was looked up is there, so nobody can insert it.
      rintro created rfl rfl
      exact absurd hrow (by rw [haccepts]; exact (Option.some_ne_none row).symm)
  | attachDocument hsome => exact .attachDocument (isSome_claims_apply w hsome)
  | recordParty hsome => exact .recordParty (isSome_claims_apply w hsome)

/-- A row that could be inserted still can be after a write that takes something
    else. -/
theorem Tables.Accepts.apply {t : Tables} {v w : Write} (h : t.Accepts v)
    -- Only a write to the same row could take its place.
    (hne : v.resource ≠ w.resource) : (t.apply w).Accepts v := by
  cases v with
  | claim row =>
      cases w with
      | claim other =>
          have hid : row.claimId ≠ other.claimId := fun heq => hne (congrArg Resource.claimKey heq)
          exact (Function.update_of_ne hid _ _).trans h
      | status claimId updated =>
          by_cases hid : row.claimId = claimId
          · subst hid
            simp only [Tables.Accepts, Tables.apply, Function.update_self] at h ⊢
            rw [h, Option.map_none]
          · exact (Function.update_of_ne hid _ _).trans h
      | document | party | key => exact h
  | status => trivial
  | document row =>
      cases w with
      | document other =>
          have hid : other.documentId ≠ row.documentId := fun heq =>
            hne (congrArg Resource.documentKey heq.symm)
          intro d hd
          rcases List.mem_append.mp hd with hd | hd
          · exact h d hd
          · rwa [List.mem_singleton.mp hd]
      | claim | status | party | key => exact h
  | party row =>
      cases w with
      | party other =>
          have hid : other.partyId ≠ row.partyId := fun heq =>
            hne (congrArg Resource.partyKey heq.symm)
          intro p hp
          rcases List.mem_append.mp hp with hp | hp
          · exact h p hp
          · rwa [List.mem_singleton.mp hp]
      | claim | status | document | key => exact h
  | key name row =>
      cases w with
      | key other row' =>
          have hid : name ≠ other := fun heq => hne (congrArg Resource.idempotencyKey heq)
          exact (Function.update_of_ne hid _ _).trans h
      | claim | status | document | party => exact h

theorem idempotencyKeys_apply_key (t : Tables) (name : Str) (row : KeyRow) :
    (t.apply (.key name row)).idempotencyKeys =
      Function.update t.idempotencyKeys name (some row) := rfl

/-- What a call writes is no key. -/
theorem idempotencyKeys_write (t : Tables) (draft : Draft) (id : Uuid) (now : Moment) :
    (t.apply (draft.write id now).1).idempotencyKeys = t.idempotencyKeys := by
  cases draft <;> rfl

theorem accepts_key_iff {t : Tables} {draft : Draft} {id : Uuid} {now : Moment} {name : Str}
    {row : KeyRow} :
    (t.apply (draft.write id now).1).Accepts (.key name row) ↔ t.Accepts (.key name row) := by
  simp only [Tables.Accepts, idempotencyKeys_write]

/-- Every claim stands under its own identifier, with a policy number a text
    column takes. -/
def RowsInv (t : Tables) : Prop :=
  ∀ id row, t.claims id = some row → row.claimId = id ∧ Theory.Storable row.policyNumber

theorem RowsInv.apply {t : Tables} (h : RowsInv t) {w : Write} (hw : w.Storable) :
    RowsInv (t.apply w) := by
  intro id row hrow
  cases w with
  | claim created =>
      by_cases hid : id = created.claimId
      · subst hid
        simp only [Tables.apply, Function.update_self, Option.some.injEq] at hrow
        subst hrow
        exact ⟨rfl, hw⟩
      · simp only [Tables.apply, Function.update_of_ne hid] at hrow
        exact h id row hrow
  | status claimId updated =>
      by_cases hid : id = claimId
      · subst hid
        simp only [Tables.apply, Function.update_self] at hrow
        rcases Option.map_eq_some_iff.mp hrow with ⟨before, hbefore, rfl⟩
        exact h id before hbefore
      · simp only [Tables.apply, Function.update_of_ne hid] at hrow
        exact h id row hrow
  | document | party | key => exact h id row hrow

/-- What a call wrote it answers with in texts a text column takes. -/
theorem Finds.storable_answer {t : Tables} {call : Call} {draft : Draft} {id : Uuid} {now : Moment}
    (h : Finds t call draft) (hrows : RowsInv t) (hw : (draft.write id now).1.Storable) :
    (draft.write id now).2.Storable := by
  cases h with
  | create _ _ => exact hw
  | recordStatus hrow => exact (hrows _ _ hrow).2
  | attachDocument _ => exact hw
  | recordParty _ => trivial

/-- A call answers with its own model. -/
theorem Finds.answers {t : Tables} {call : Call} {draft : Draft} (h : Finds t call draft)
    (id : Uuid) (now : Moment) : call.Answers (draft.write id now).2 := by
  cases h <;> trivial

/-- What one write alone answers, and the tables it leaves: what its key had
    recorded, or what it performs and records. -/
inductive Done (t : Tables) (request : Request) (id : Uuid) (now keyedAt : Moment) :
    Answer → Tables → Prop
  | replayed {remembered : KeyRow} {answer : Answer} :
      t.idempotencyKeys request.key = some remembered →
      CoreSim.replayed remembered request = .ok answer → Done t request id now keyedAt answer t
  | performed {draft : Draft} : t.idempotencyKeys request.key = none →
      Finds t request.call draft → (draft.write id now).1.Storable →
      t.Accepts (draft.write id now).1 →
      (Write.key request.key (keyRow request (draft.write id now).2 keyedAt)).Storable →
      Done t request id now keyedAt (draft.write id now).2
        ((t.apply (draft.write id now).1).apply
          (.key request.key (keyRow request (draft.write id now).2 keyedAt)))

/-- No write touches the policies. -/
theorem Done.policies {t after : Tables} {request : Request} {id : Uuid} {now keyedAt : Moment}
    {answer : Answer} (h : Done t request id now keyedAt answer after) :
    after.policies = t.policies := by
  cases h with
  | replayed => rfl
  | performed => rw [policies_apply, policies_apply]

theorem execute_eq_ok {t after : Tables} {w : Write} :
    execute t w = .ok after ↔ w.Storable ∧ t.Accepts w ∧ t.apply w = after := by
  unfold execute
  by_cases hstorable : w.Storable
  · by_cases haccepts : t.Accepts w
    · rw [if_pos hstorable, if_pos haccepts, Except.ok.injEq]
      exact ⟨fun h => ⟨hstorable, haccepts, h⟩, fun h => h.2.2⟩
    · rw [if_pos hstorable, if_neg haccepts]
      exact ⟨nofun, fun h => absurd h.2.1 haccepts⟩
  · rw [if_neg hstorable]
    exact ⟨nofun, fun h => absurd h.1 hstorable⟩

/-- One write alone succeeds exactly in one of the two ways. -/
theorem idempotent_eq_ok {t after : Tables} {request : Request} {id : Uuid} {now keyedAt : Moment}
    {answer : Answer} :
    idempotent t request id now keyedAt = .ok (answer, after) ↔
      Theory.Storable request.key ∧ Done t request id now keyedAt answer after := by
  unfold idempotent
  by_cases hkey : Theory.Storable request.key
  · rw [if_pos hkey]
    constructor
    · intro h
      refine ⟨hkey, ?_⟩
      cases hrow : t.idempotencyKeys request.key with
      | some remembered =>
          cases hr : replayed remembered request with
          | ok given =>
              simp only [hrow, hr, Except.map, Except.ok.injEq, Prod.mk.injEq] at h
              rcases h with ⟨rfl, rfl⟩
              exact .replayed hrow hr
          | error e => simp only [hrow, hr, Except.map, reduceCtorEq] at h
      | none =>
          cases hcheck : check t request.call with
          | ok draft =>
              simp only [hrow, hcheck, Except.bind] at h
              cases hw : execute t (draft.write id now).1 with
              | ok written =>
                  -- The key is recorded with the answer the call's own write gives.
                  simp only [hw] at h
                  cases hk : execute written
                      (.key request.key (keyRow request (draft.write id now).2 keyedAt)) with
                  | ok keyed =>
                      simp only [hk, Except.map, Except.ok.injEq, Prod.mk.injEq] at h
                      rcases h with ⟨rfl, rfl⟩
                      rcases execute_eq_ok.mp hw with ⟨hstorable, haccepts, rfl⟩
                      rcases execute_eq_ok.mp hk with ⟨hkeyStorable, _, rfl⟩
                      exact .performed hrow (check_iff.mp hcheck) hstorable haccepts hkeyStorable
                  | error e => simp only [hk, Except.map, reduceCtorEq] at h
              | error e => simp only [hw, reduceCtorEq] at h
          | error e => simp only [hrow, hcheck, Except.bind, reduceCtorEq] at h
    · rintro ⟨_, hdone⟩
      cases hdone with
      | replayed hrow hr => simp only [hrow, hr, Except.map]
      | @performed draft hrow hfinds hstorable haccepts hkeyStorable =>
          have hw : execute t (draft.write id now).1 = .ok (t.apply (draft.write id now).1) :=
            execute_eq_ok.mpr ⟨hstorable, haccepts, rfl⟩
          -- The first write leaves the keys alone, so the key is still free.
          have hk := (execute_eq_ok (t := t.apply (draft.write id now).1)
            (w := .key request.key (keyRow request (draft.write id now).2 keyedAt))).mpr
              ⟨hkeyStorable, accepts_key_iff.mpr hrow, rfl⟩
          simp only [hrow, check_iff.mpr hfinds, Except.bind, hw, hk, Except.map]
  · rw [if_neg hkey]
    exact ⟨nofun, fun h => absurd h.1 hkey⟩

/-- One write alone keeps the claims in order. -/
theorem RowsInv.done {t after : Tables} {request : Request} {id : Uuid} {now keyedAt : Moment}
    {answer : Answer} (h : RowsInv t) (hdone : Done t request id now keyedAt answer after) :
    RowsInv after := by
  cases hdone with
  | replayed _ _ => exact h
  | performed _ _ hstorable _ hkeyStorable => exact (h.apply hstorable).apply hkeyStorable

/-- A key one write alone does not run under keeps what it recorded. -/
theorem Done.idempotencyKeys {t after : Tables} {request : Request} {id : Uuid}
    {now keyedAt : Moment} {answer : Answer} (h : Done t request id now keyedAt answer after)
    {key : Str} (hne : key ≠ request.key) : after.idempotencyKeys key = t.idempotencyKeys key := by
  cases h with
  | replayed _ _ => rfl
  | performed _ _ _ _ _ =>
      rw [idempotencyKeys_apply_key, idempotencyKeys_write, Function.update_of_ne hne]

/-- What a key recorded stays. -/
theorem Done.kept {t after : Tables} {request : Request} {id : Uuid} {now keyedAt : Moment}
    {answer : Answer} (h : Done t request id now keyedAt answer after) {key : Str} {row : KeyRow}
    (hrow : t.idempotencyKeys key = some row) : after.idempotencyKeys key = some row := by
  by_cases hkey : key = request.key
  · subst hkey
    cases h with
    | replayed _ _ => exact hrow
    | performed hfree _ _ _ _ =>
        rw [hfree] at hrow
        cases hrow
  · rw [h.idempotencyKeys hkey]
    exact hrow

end CoreSim

end ClaimTriage
