import ClaimTriage.Boundary
import ClaimTriage.CoreSim.Parties
import ClaimTriage.Theory.Except

/-!
# The Surrounding Systems' Surface

What the systems answer a request with, whatever state their database is in.

Every operation runs over one connection, and what its statements find may
change from one to the next. What the store raises is answered by its class: its
own three refusals, a request outside the contract, and what readiness raises
have a handler, and nothing else has. So a failing database is told of by the
one operation that asks for it, and by no other (`contract_iff`).

## Main definitions

* `Place`, `Condition`: Where a request uses the database, and what becomes of
  it there.
* `connection`: One committed connection.
* `readPolicy`, `readHeld`, `readPartiesHeld`, `write`: The operations of the
  store.
* `Arrival`: A request as the framework hands it over, or does not.
* `serve`: What it is answered with.
* `InShape`: The answer is one the contract describes.
* `ContractHolds`: And an unreachable database is told of.
* `Carries`: The database takes everything an operation gets to.

## Theorems

* `ends_connection`: When a connection raises only what is answered.
* `ends_write`, `ends_readPolicy`, `ends_readHeld`, `ends_readPartiesHeld`: When the
  operations do.
* `inShape_operation`: When what an operation is answered with is in shape.
* `contract_iff`: When an answer is one the contract describes.
-/

namespace ClaimTriage

open Theory Text Calendar Failing

open Boundary (Encodable encodable_append encodable_of_printable)

namespace CoreSim

/-! ### The store under a failing database -/

/-- Where a request uses the database: opening the connection, the statements of
    the schema, what it asks, and committing. -/
inductive Place where
  | connect
  | schema (n : Nat)
  | ping
  | lookUp
  | select
  | remember
  | write
  | insertKey
  | rollback
  | rememberAgain
  | commit
  deriving DecidableEq

/-- What becomes of a request wherever it uses the database: it fails there, or
    shows these tables. -/
structure Condition where
  schemaApplied : Bool
  fails : Place → Bool
  tables : Place → Tables

/-- How many statements create the tables. -/
def schemaStatements : Nat :=
  5

namespace Condition

/-- The database takes what is sent there. -/
def Takes (db : Condition) (place : Place) : Prop :=
  db.fails place = false

/-- What is sent there finds. -/
def sends (db : Condition) (place : Place) : Except Raised Tables :=
  if db.fails place then .error .operationalError else .ok (db.tables place)

/-- The schema and the policies the systems hold from the start, unless they are
    there already. -/
def applySchema (db : Condition) : Except Raised Unit :=
  if db.schemaApplied then .ok ()
  else (List.range (schemaStatements + seedPolicies.length)).forM fun n => do
    let _ ← db.sends (.schema n)

/-- One committed connection. What is raised over it ends it with nothing
    committed. -/
def connection {α : Type} (db : Condition) (body : Except Raised α) : Except Raised α := do
  let _ ← db.sends .connect
  db.applySchema
  let a ← body
  let _ ← db.sends .commit
  return a

end Condition

/-- The records the systems hold are reachable right now. Every failure of the
    driver counts. -/
def ready (db : Condition) : Bool :=
  match db.connection (db.sends .ping) with
  | .ok _ => true
  | .error _ => false

/-- The policy, or the refusal that says there is none. -/
def readPolicy (db : Condition) (policyNumber : Str) : Except Raised Policy := do
  let row ← db.connection (do
    if Theory.Storable policyNumber then
      let t ← db.sends .select
      return t.policies policyNumber
    else throw .dataError)
  match row with
  | none => throw (.policyNotFound policyNumber)
  | some policy => return policy

/-- The claim, or the refusal that says there is none. -/
def readHeld (db : Condition) (claimId : Uuid) : Except Raised Claim := do
  let t ← db.connection (db.sends .select)
  read t claimId

/-- Every party a claim carries, or the refusal that says there is no such
    claim. -/
def readPartiesHeld (db : Condition) (claimId : Uuid) : Except Raised (List ClaimParty) :=
  db.connection (do
    let looked ← db.sends .lookUp
    requireClaim looked claimId
    let selected ← db.sends .select
    return selectParties selected claimId)

/-- What a key already recorded, if anything. -/
def remembered (db : Condition) (place : Place) (key : Str) : Except Raised (Option KeyRow) :=
  if Theory.Storable key then do
    let t ← db.sends place
    return t.idempotencyKeys key
  else .error .dataError

/-- A write performed: looked up, and sent. -/
def performed (db : Condition) (request : Request) (id : Uuid) (now : Moment) :
    Except Raised Answer := do
  let looked ← db.sends .lookUp
  let draft ← check looked request.call
  let t ← db.sends .write
  let _ ← execute t (draft.write id now).1
  return (draft.write id now).2

/-- One write over a connection, once per key. -/
def writeOnce (db : Condition) (request : Request) (id : Uuid) (now keyedAt : Moment) :
    Except Raised Answer := do
  match ← remembered db .remember request.key with
  | some row => replayed row request
  | none =>
      let answer ← performed db request id now
      let t ← db.sends .insertKey
      match execute t (.key request.key (keyRow request answer keyedAt)) with
      | .ok _ => return answer
      | .error .uniqueViolation =>
          -- Another attempt with this key committed in between.
          let _ ← db.sends .rollback
          match ← remembered db .rememberAgain request.key with
          | none => throw .uniqueViolation
          | some concurrent => replayed concurrent request
      | .error raised => throw raised

/-- One of the four writes. -/
def write (db : Condition) (request : Request) (id : Uuid) (now keyedAt : Moment) :
    Except Raised Answer :=
  db.connection (writeOnce db request id now keyedAt)

/-! ### The surface -/

/-- What an operation is asked, as its route takes it. -/
inductive Asked where
  | readReadiness
  | readPolicy (policyNumber : Str)
  | readClaim (claimId : Uuid)
  | readClaimParties (claimId : Uuid)
  | write (request : Request) (id : Uuid) (now keyedAt : Moment)

/-- What the framework makes of a request: it refuses it itself, rejects it as
    outside the contract, or hands it to its route. -/
inductive Arrival where
  | unread (statusCode : Nat) (detail : Str)
  | rejected (rejectedLocations : Str)
  | handed (asked : Asked)

/-- The body of an answer. -/
inductive Body where
  | readiness
  | policy (policy : Policy)
  | parties (parties : List ClaimParty)
  | written (answer : Answer)
  deriving DecidableEq

/-- What a request is answered with: an operation's success, a failure in the
    contract's shape or in the framework's own, or nothing that was meant. -/
inductive Reply where
  | answered (statusCode : Nat) (body : Body)
  | failed (statusCode : Nat) (error : ErrorResponse)
  | unread (statusCode : Nat) (detail : Str)
  | crashed
  deriving DecidableEq

/-- One error shape for every failure. -/
def refused (statusCode : Nat) (code : ErrorCode) (detail : Str) : Reply :=
  if Encodable detail then .failed statusCode ⟨code, detail⟩ else .crashed

/-- What the store raised, answered by what handles its class. -/
def unserved (raised : Raised) : Reply :=
  match raised, raised.message with
  | .claimNotFound _, some message => refused 404 .claimNotFound message
  | .policyNotFound _, some message => refused 404 .policyNotFound message
  | .idempotencyKeyReuse _, some message => refused 409 .idempotencyKeyReuse message
  | _, _ => .crashed

/-- What an operation comes to. -/
def replied {α : Type} (statusCode : Nat) (body : α → Body) : Except Raised α → Reply
  | .ok a => .answered statusCode (body a)
  | .error raised => unserved raised

/-- The status a write succeeds with. -/
def Call.success : Call → Nat
  | .recordStatus _ _ => 200
  | .create _ | .attachDocument _ _ | .recordParty _ _ => 201

/-- An operation, over a database in some condition. -/
def operation (db : Condition) : Asked → Reply
  | .readReadiness =>
      if ready db then .answered 200 .readiness
      else refused 503 .serviceUnavailable (text "the claims the systems hold are unreachable")
  | .readPolicy policyNumber => replied 200 .policy (readPolicy db policyNumber)
  | .readClaim claimId => replied 200 (fun claim => .written (.claim claim)) (readHeld db claimId)
  | .readClaimParties claimId => replied 200 .parties (readPartiesHeld db claimId)
  | .write request id now keyedAt =>
      replied request.call.success .written (write db request id now keyedAt)

/-- A request served. -/
def serve (arrival : Arrival) (db : Condition) : Reply :=
  match arrival with
  | .unread statusCode detail => .unread statusCode detail
  | .rejected rejectedLocations => refused 422 .invalidPayload rejectedLocations
  | .handed asked => operation db asked

/-! ### What the contract describes -/

/-- The status the contract pairs a code with. -/
def ErrorCode.status : ErrorCode → Nat
  | .invalidPayload => 422
  | .claimNotFound => 404
  | .policyNotFound => 404
  | .idempotencyKeyReuse => 409
  | .serviceUnavailable => 503

/-- The success an operation describes. -/
inductive Succeeds : Asked → Nat → Body → Prop
  | readReadiness : Succeeds .readReadiness 200 .readiness
  | readPolicy {policyNumber : Str} (policy : Policy) :
      Succeeds (.readPolicy policyNumber) 200 (.policy policy)
  | readClaim {claimId : Uuid} (claim : Claim) :
      Succeeds (.readClaim claimId) 200 (.written (.claim claim))
  | readClaimParties {claimId : Uuid} (parties : List ClaimParty) :
      Succeeds (.readClaimParties claimId) 200 (.parties parties)
  | write {request : Request} {id : Uuid} {now keyedAt : Moment} {answer : Answer} :
      request.call.Answers answer →
      Succeeds (.write request id now keyedAt) request.call.success (.written answer)

/-- The answer is the operation's success, or a failure in the contract's shape with
    the status its code is paired with. -/
inductive InShape (arrival : Arrival) : Reply → Prop
  | success {asked : Asked} {statusCode : Nat} {body : Body} : arrival = .handed asked →
      Succeeds asked statusCode body → InShape arrival (.answered statusCode body)
  | failure (error : ErrorResponse) : InShape arrival (.failed (ErrorCode.status error.code) error)

/-- The answer is one the contract describes, and a route that cannot reach the
    database says so. -/
def ContractHolds (arrival : Arrival) (db : Condition) : Prop :=
  InShape arrival (serve arrival db) ∧
    ∀ asked, arrival = .handed asked → ¬ db.Takes .connect →
      ∃ detail, serve arrival db = .failed 503 ⟨.serviceUnavailable, detail⟩

/-- The connection is opened, and the schema is there. -/
def Condition.Opens (db : Condition) : Prop :=
  db.Takes .connect ∧
    (db.schemaApplied = false → ∀ n < schemaStatements + seedPolicies.length, db.Takes (.schema n))

/-- A row a key has answers the request it is about: its response is read back, and
    the transaction ends. -/
def Condition.Replays (db : Condition) (row : KeyRow) (request : Request) : Prop :=
  row.fingerprint = fingerprint request.call →
    ((jsonb.apply row.response).bind request.call.validate).isSome ∧ db.Takes .commit

/-- The key of a write that was performed is recorded, or is one another attempt has
    recorded meanwhile. -/
def Condition.Records (db : Condition) (request : Request) (answer : Answer) (keyedAt : Moment) :
    Prop :=
  db.Takes .insertKey ∧ (Write.key request.key (keyRow request answer keyedAt)).Storable ∧
    if (db.tables .insertKey).idempotencyKeys request.key = none then db.Takes .commit
    else db.Takes .rollback ∧ db.Takes .rememberAgain ∧
      ∃ concurrent, (db.tables .rememberAgain).idempotencyKeys request.key = some concurrent ∧
        db.Replays concurrent request

/-- What a write looks up is a text a column takes, and what it writes once it is
    found is taken. -/
def Condition.Performs (db : Condition) (request : Request) (id : Uuid) (now keyedAt : Moment) :
    Prop :=
  db.Takes .lookUp ∧
    (∀ submission, request.call = .create submission → Theory.Storable submission.policyNumber) ∧
    ∀ draft, Finds (db.tables .lookUp) request.call draft →
      db.Takes .write ∧ (draft.write id now).1.Storable ∧
        (db.tables .write).Accepts (draft.write id now).1 ∧
          db.Records request (draft.write id now).2 keyedAt

/-- The database takes everything an operation gets to, and what is there is read
    back. Readiness is an answer whether it does or not. -/
def Carries (db : Condition) : Asked → Prop
  | .readReadiness => True
  | .readPolicy policyNumber =>
      db.Opens ∧ Theory.Storable policyNumber ∧ db.Takes .select ∧ db.Takes .commit
  | .readClaim _ => db.Opens ∧ db.Takes .select ∧ db.Takes .commit
  | .readClaimParties claimId =>
      db.Opens ∧ db.Takes .lookUp ∧
        (((db.tables .lookUp).claims claimId).isSome → db.Takes .select ∧ db.Takes .commit)
  | .write request id now keyedAt =>
      db.Opens ∧ Theory.Storable request.key ∧ db.Takes .remember ∧
        match (db.tables .remember).idempotencyKeys request.key with
        | some row => db.Replays row request
        | none => db.Performs request id now keyedAt

/-! ### What is raised and answered -/

/-- The store raised a refusal of its own, and its message can be written. -/
def Raised.Told (raised : Raised) : Prop :=
  ∃ message, raised.message = some message ∧ Encodable message

section Ends

variable {α : Type} {P : α → Prop} {db : Condition}

theorem not_told_of_message {raised : Raised} (h : raised.message = none) : ¬ raised.Told := by
  rintro ⟨message, hmessage, _⟩
  rw [h] at hmessage
  cases hmessage

theorem ends_sends {P : Tables → Prop} {place : Place} :
    Ends Raised.Told P (db.sends place) ↔ db.Takes place ∧ P (db.tables place) := by
  unfold Condition.sends Condition.Takes
  cases h : db.fails place with
  | true => exact ⟨fun htold => absurd htold (not_told_of_message rfl), fun h => absurd h.1 nofun⟩
  | false => exact ⟨fun hp => ⟨rfl, hp⟩, And.right⟩

theorem ends_forM {f : Nat → Except Raised Unit} {Q : Nat → Prop} {P : Unit → Prop}
    (hf : ∀ n, ∀ P : Unit → Prop, Ends Raised.Told P (f n) ↔ Q n ∧ P ()) (l : List Nat) :
    Ends Raised.Told P (l.forM f) ↔ (∀ n ∈ l, Q n) ∧ P () := by
  induction l with
  | nil => exact ⟨fun h => ⟨fun _ hn => absurd hn List.not_mem_nil, h⟩, And.right⟩
  | cons n l ih =>
      have hcons : (n :: l).forM f = f n >>= fun _ => l.forM f := rfl
      rw [hcons, ends_bind, hf, ih, List.forall_mem_cons, and_assoc]

theorem ends_applySchema {P : Unit → Prop} :
    Ends Raised.Told P db.applySchema ↔
      (db.schemaApplied = false →
        ∀ n < schemaStatements + seedPolicies.length, db.Takes (.schema n)) ∧ P () := by
  unfold Condition.applySchema
  cases db.schemaApplied with
  | true => exact ⟨fun h => ⟨nofun, h⟩, And.right⟩
  | false =>
      rw [if_neg nofun, ends_forM (Q := fun n => db.Takes (.schema n))
        (fun n P => by rw [ends_bind, ends_sends]; rfl)]
      simp only [List.mem_range, forall_const]

/-- Over a connection everything raised is answered when it opens, everything raised in
    it is, and it commits after what succeeds. -/
theorem ends_connection {body : Except Raised α} :
    Ends Raised.Told P (db.connection body) ↔
      db.Opens ∧ Ends Raised.Told (fun a => db.Takes .commit ∧ P a) body := by
  unfold Condition.connection Condition.Opens
  rw [ends_bind, ends_sends, ends_bind, ends_applySchema, ends_bind, and_assoc]
  have hcommit : (fun a => Ends Raised.Told P (do let _ ← db.sends .commit; return a)) =
      fun a => db.Takes .commit ∧ P a := by
    funext a
    rw [ends_bind, ends_sends]
    rfl
  rw [hcommit]

theorem told_claimNotFound (claimId : Uuid) : (Raised.claimNotFound claimId).Told :=
  ⟨_, rfl, encodable_append.mpr ⟨encodable_of_printable (by decide),
    encodable_of_printable claimId.text_printable⟩⟩

/-- A text a column takes can be written. -/
theorem encodable_of_storable {s : Str} (h : Theory.Storable s) : Encodable s := by
  intro c hc
  have hrange := (h c hc).2
  unfold IsHigh IsLow
  omega

theorem told_policyNotFound {policyNumber : Str} (h : Theory.Storable policyNumber) :
    (Raised.policyNotFound policyNumber).Told :=
  ⟨_, rfl, encodable_append.mpr ⟨encodable_of_printable (by decide), encodable_of_storable h⟩⟩

theorem told_idempotencyKeyReuse {key : Str} (h : Theory.Storable key) :
    (Raised.idempotencyKeyReuse key).Told :=
  ⟨_, rfl, encodable_append.mpr ⟨encodable_append.mpr
    ⟨encodable_of_printable (by decide), encodable_of_storable h⟩,
    encodable_of_printable (by decide)⟩⟩

theorem ends_requireClaim {P : Unit → Prop} {t : Tables} {claimId : Uuid} :
    Ends Raised.Told P (requireClaim t claimId) ↔ ((t.claims claimId).isSome → P ()) := by
  unfold requireClaim
  by_cases h : (t.claims claimId).isSome
  · rw [if_pos h]
    exact ⟨fun hp _ => hp, fun hp => hp h⟩
  · rw [if_neg h]
    exact ⟨fun _ hsome => absurd hsome h, fun _ => told_claimNotFound claimId⟩

/-- The look-up of a write raises what is answered, unless it looks up a text no column
    takes. -/
theorem ends_check {P : Draft → Prop} {t : Tables} {call : Call} :
    Ends Raised.Told P (check t call) ↔
      (∀ submission, call = .create submission → Theory.Storable submission.policyNumber) ∧
        ∀ draft, Finds t call draft → P draft := by
  -- The checks hand on a draft where they find one, and then all that is left is the draft.
  cases hcheck : check t call with
  | ok draft =>
      have hfinds := check_iff.mp hcheck
      constructor
      · intro hp
        refine ⟨?_, fun other hother => ?_⟩
        · rintro submission rfl
          cases hfinds with
          | create hstorable _ => exact hstorable
        · have hsame := hcheck.symm.trans (check_iff.mpr hother)
          cases hsame
          exact hp
      · rintro ⟨_, hp⟩
        exact hp draft hfinds
  | error raised =>
      -- A call that is refused finds no draft.
      have hnone : ∀ draft, ¬ Finds t call draft := by
        intro draft hfinds
        have hok := check_iff.mpr hfinds
        rw [hcheck] at hok
        cases hok
      refine ⟨fun htold => ⟨?_, fun draft hdraft => absurd hdraft (hnone draft)⟩, ?_⟩
      · rintro submission rfl
        by_contra hstorable
        simp only [check, if_neg hstorable, Except.error.injEq] at hcheck
        subst hcheck
        exact not_told_of_message rfl htold
      · rintro ⟨hstorable, _⟩
        cases call with
        | create submission =>
            simp only [check, if_pos (hstorable submission rfl)] at hcheck
            split at hcheck <;> cases hcheck
            exact told_policyNotFound (hstorable submission rfl)
        | recordStatus claimId status =>
            cases hrow : t.claims claimId with
            | none =>
                rw [check, hrow] at hcheck
                cases hcheck
                exact told_claimNotFound claimId
            | some row => exact absurd (.recordStatus hrow) (hnone _)
        | attachDocument claimId attachment =>
            by_cases hsome : (t.claims claimId).isSome
            · exact absurd (.attachDocument hsome) (hnone _)
            · rw [check, requireClaim, if_neg hsome] at hcheck
              cases hcheck
              exact told_claimNotFound claimId
        | recordParty claimId registration =>
            by_cases hsome : (t.claims claimId).isSome
            · exact absurd (.recordParty hsome) (hnone _)
            · rw [check, requireClaim, if_neg hsome] at hcheck
              cases hcheck
              exact told_claimNotFound claimId

theorem ends_execute {P : Tables → Prop} {t : Tables} {w : Write} :
    Ends Raised.Told P (execute t w) ↔ w.Storable ∧ t.Accepts w ∧ P (t.apply w) := by
  unfold execute
  by_cases hstorable : w.Storable
  · by_cases haccepts : t.Accepts w
    · rw [if_pos hstorable, if_pos haccepts]
      exact ⟨fun hp => ⟨hstorable, haccepts, hp⟩, fun hp => hp.2.2⟩
    · rw [if_pos hstorable, if_neg haccepts]
      exact ⟨fun htold => absurd htold (not_told_of_message rfl), fun hp => absurd hp.2.1 haccepts⟩
  · rw [if_neg hstorable]
    exact ⟨fun htold => absurd htold (not_told_of_message rfl), fun hp => absurd hp.1 hstorable⟩

/-- What a key answered is validated as the model its call answers with. -/
theorem answers_of_validate {call : Call} {j : Json} {answer : Answer}
    (h : call.validate j = some answer) : call.Answers answer := by
  cases call <;> rcases Option.map_eq_some_iff.mp h with ⟨_, _, rfl⟩ <;> trivial

theorem ends_replayed {row : KeyRow} {request : Request} (hkey : Theory.Storable request.key) :
    Ends Raised.Told (fun answer => db.Takes .commit ∧ request.call.Answers answer)
        (replayed row request) ↔
      db.Replays row request := by
  unfold replayed Condition.Replays
  by_cases hprint : row.fingerprint = fingerprint request.call
  · rw [if_neg (not_not_intro hprint)]
    cases hread : (jsonb.apply row.response).bind request.call.validate with
    | none =>
        exact ⟨fun htold => absurd htold (not_told_of_message rfl),
          fun h => absurd (h hprint).1 nofun⟩
    | some answer =>
        rcases Option.bind_eq_some_iff.mp hread with ⟨j, _, hj⟩
        exact ⟨fun h _ => ⟨rfl, h.1⟩, fun h => ⟨(h hprint).2, answers_of_validate hj⟩⟩
  · rw [if_pos hprint]
    exact ⟨fun _ h => absurd h hprint, fun _ => told_idempotencyKeyReuse hkey⟩

theorem ends_remembered {P : Option KeyRow → Prop} {place : Place} {key : Str} :
    Ends Raised.Told P (remembered db place key) ↔
      Theory.Storable key ∧ db.Takes place ∧ P ((db.tables place).idempotencyKeys key) := by
  unfold remembered
  by_cases hkey : Theory.Storable key
  · rw [if_pos hkey, ends_bind, ends_sends]
    exact ⟨fun h => ⟨hkey, h⟩, And.right⟩
  · rw [if_neg hkey]
    exact ⟨fun htold => absurd htold (not_told_of_message rfl), fun h => absurd h.1 hkey⟩

/-- A write is performed, or raises what is answered, exactly if what it looks up and what
    it writes is taken. -/
theorem ends_performed {P : Answer → Prop} {request : Request} {id : Uuid} {now : Moment} :
    Ends Raised.Told P (performed db request id now) ↔
      db.Takes .lookUp ∧
      (∀ submission, request.call = .create submission → Theory.Storable submission.policyNumber) ∧
      ∀ draft, Finds (db.tables .lookUp) request.call draft →
        db.Takes .write ∧ (draft.write id now).1.Storable ∧
          (db.tables .write).Accepts (draft.write id now).1 ∧ P (draft.write id now).2 := by
  unfold performed
  rw [ends_bind, ends_sends, ends_bind, ends_check]
  refine and_congr_right fun _ => and_congr_right fun _ => forall₂_congr fun draft _ => ?_
  rw [ends_bind, ends_sends, ends_bind, ends_execute]
  rfl

/-- Over a connection a write is answered with its own model, or raises what is answered,
    exactly if its key is one a column takes, and what it gets to is taken. -/
theorem ends_writeOnce {request : Request} {id : Uuid} {now keyedAt : Moment} :
    Ends Raised.Told (fun answer => db.Takes .commit ∧ request.call.Answers answer)
        (writeOnce db request id now keyedAt) ↔
      Theory.Storable request.key ∧ db.Takes .remember ∧
        match (db.tables .remember).idempotencyKeys request.key with
        | some row => db.Replays row request
        | none => db.Performs request id now keyedAt := by
  unfold writeOnce
  rw [ends_bind, ends_remembered]
  refine and_congr_right fun hkey => and_congr_right fun _ => ?_
  -- A key that is already there is replayed, and otherwise the call is performed under it.
  cases (db.tables .remember).idempotencyKeys request.key with
  | some row => exact ends_replayed hkey
  | none =>
      unfold Condition.Performs
      simp only []
      rw [ends_bind, ends_performed]
      refine and_congr_right fun _ => and_congr_right fun _ => forall₂_congr fun draft hdraft => ?_
      refine and_congr_right fun _ => and_congr_right fun _ => and_congr_right fun _ => ?_
      unfold Condition.Records
      rw [ends_bind, ends_sends]
      refine and_congr_right fun _ => ?_
      simp only [execute]
      by_cases hstorable :
          (Write.key request.key (keyRow request (draft.write id now).2 keyedAt)).Storable
      · rw [if_pos hstorable]
        -- A key that another request took in between is looked up again, in a transaction of its
        -- own.
        by_cases hfree : (db.tables .insertKey).idempotencyKeys request.key = none
        · have haccepts : (db.tables .insertKey).Accepts
              (.key request.key (keyRow request (draft.write id now).2 keyedAt)) := hfree
          rw [if_pos haccepts, if_pos hfree]
          exact ⟨fun h => ⟨hstorable, h.1⟩, fun h => ⟨h.2, hdraft.answers id now⟩⟩
        · have haccepts : ¬ (db.tables .insertKey).Accepts
              (.key request.key (keyRow request (draft.write id now).2 keyedAt)) := hfree
          rw [if_neg haccepts, if_neg hfree]
          simp only []
          rw [ends_bind, ends_sends, ends_bind, ends_remembered]
          constructor
          · rintro ⟨hrollback, _, hagain, hfound⟩
            refine ⟨hstorable, hrollback, hagain, ?_⟩
            cases hrow : (db.tables .rememberAgain).idempotencyKeys request.key with
            | none =>
                rw [hrow] at hfound
                exact absurd hfound (not_told_of_message rfl)
            | some concurrent =>
                rw [hrow] at hfound
                exact ⟨concurrent, rfl, (ends_replayed hkey).mp hfound⟩
          · rintro ⟨_, hrollback, hagain, concurrent, hrow, hreplays⟩
            refine ⟨hrollback, hkey, hagain, ?_⟩
            rw [hrow]
            exact (ends_replayed hkey).mpr hreplays
      · rw [if_neg hstorable]
        exact ⟨fun htold => absurd htold (not_told_of_message rfl), fun h => absurd h.1 hstorable⟩

/-- A write is answered as the contract describes exactly if the database takes
    everything it gets to. -/
theorem ends_write {request : Request} {id : Uuid} {now keyedAt : Moment} :
    Ends Raised.Told request.call.Answers (write db request id now keyedAt) ↔
      Carries db (.write request id now keyedAt) := by
  unfold write Carries
  rw [ends_connection, ends_writeOnce]

theorem ends_readPolicy {policyNumber : Str} :
    Ends Raised.Told (fun _ => True) (readPolicy db policyNumber) ↔
      Carries db (.readPolicy policyNumber) := by
  unfold readPolicy Carries
  rw [ends_bind, ends_connection]
  refine and_congr_right fun _ => ?_
  by_cases hstorable : Theory.Storable policyNumber
  · rw [if_pos hstorable, ends_bind, ends_sends]
    constructor
    · rintro ⟨hselect, hcommit, _⟩
      exact ⟨hstorable, hselect, hcommit⟩
    · rintro ⟨_, hselect, hcommit⟩
      -- The answer is told whether the policy is there or not.
      refine ⟨hselect, hcommit, ?_⟩
      cases (db.tables .select).policies policyNumber with
      | none => exact told_policyNotFound hstorable
      | some policy => trivial
  · rw [if_neg hstorable]
    exact ⟨fun htold => absurd htold (not_told_of_message rfl), fun h => absurd h.1 hstorable⟩

theorem ends_readHeld {claimId : Uuid} :
    Ends Raised.Told (fun _ => True) (readHeld db claimId) ↔ Carries db (.readClaim claimId) := by
  unfold readHeld Carries
  rw [ends_bind, ends_connection, ends_sends]
  refine and_congr_right fun _ => and_congr_right fun _ => and_iff_left ?_
  unfold read
  cases (db.tables .select).claims claimId with
  | none => exact told_claimNotFound claimId
  | some row =>
      rw [claimOf_some]
      trivial

theorem ends_readPartiesHeld {claimId : Uuid} :
    Ends Raised.Told (fun _ => True) (readPartiesHeld db claimId) ↔
      Carries db (.readClaimParties claimId) := by
  unfold readPartiesHeld Carries
  rw [ends_connection, ends_bind, ends_sends, ends_bind, ends_requireClaim]
  refine and_congr_right fun _ => and_congr_right fun _ => forall_congr' fun _ => ?_
  rw [ends_bind, ends_sends]
  exact and_congr_right fun _ => and_iff_left trivial

end Ends

/-! ### What is answered -/

theorem refused_of_encodable {statusCode : Nat} {code : ErrorCode} {detail : Str}
    (h : Encodable detail) : refused statusCode code detail = .failed statusCode ⟨code, detail⟩ :=
  if_pos h

theorem inShape_refused {arrival : Arrival} (code : ErrorCode) {detail : Str} :
    InShape arrival (refused (ErrorCode.status code) code detail) ↔ Encodable detail := by
  unfold refused
  by_cases h : Encodable detail
  · rw [if_pos h]
    exact ⟨fun _ => h, fun _ => .failure ⟨code, detail⟩⟩
  · rw [if_neg h]
    exact ⟨nofun, fun henc => absurd henc h⟩

theorem told_iff {raised : Raised} {message : Str} (h : raised.message = some message) :
    raised.Told ↔ Encodable message := by
  unfold Raised.Told
  simp only [h, Option.some.injEq, exists_eq_left']

/-- What has a handler is answered with the status its code is paired with, and what has none
    in no shape. -/
theorem inShape_unserved {arrival : Arrival} {raised : Raised} :
    InShape arrival (unserved raised) ↔ raised.Told := by
  cases hmessage : raised.message with
  | none =>
      cases raised with
      | claimNotFound | policyNotFound | idempotencyKeyReuse => cases hmessage
      | dataError | uniqueViolation | operationalError | validationError =>
          exact ⟨nofun, fun h => absurd h (not_told_of_message hmessage)⟩
  | some message =>
      rw [told_iff hmessage]
      cases raised with
      | claimNotFound =>
          unfold unserved
          rw [hmessage]
          exact inShape_refused .claimNotFound
      | policyNotFound =>
          unfold unserved
          rw [hmessage]
          exact inShape_refused .policyNotFound
      | idempotencyKeyReuse =>
          unfold unserved
          rw [hmessage]
          exact inShape_refused .idempotencyKeyReuse
      | dataError | uniqueViolation | operationalError | validationError => cases hmessage

theorem inShape_replied {α : Type} {asked : Asked} {statusCode : Nat} {body : α → Body}
    {x : Except Raised α} :
    InShape (.handed asked) (replied statusCode body x) ↔
      Ends Raised.Told (fun a => Succeeds asked statusCode (body a)) x := by
  cases x with
  | error raised => exact inShape_unserved
  | ok a =>
      constructor
      · rintro (⟨hasked, hsucceeds⟩ | _)
        cases hasked
        exact hsucceeds
      · exact fun h => .success rfl h

/-- A handed request is answered in the contract's shape exactly if the database takes
    everything its operation gets to. -/
theorem inShape_operation {asked : Asked} {db : Condition} :
    InShape (.handed asked) (operation db asked) ↔ Carries db asked := by
  cases asked with
  | readReadiness =>
      -- Readiness is answered either way, and each of the answers is in the contract.
      refine ⟨fun _ => trivial, fun _ => ?_⟩
      unfold operation
      by_cases hready : ready db = true
      · rw [if_pos hready]
        exact .success rfl .readReadiness
      · rw [if_neg hready]
        exact (inShape_refused .serviceUnavailable).mpr
          (encodable_of_printable (by decide))
  | readPolicy policyNumber =>
      rw [operation, inShape_replied, ← ends_readPolicy]
      exact ends_congr fun policy => iff_true_intro (.readPolicy policy)
  | readClaim claimId =>
      rw [operation, inShape_replied, ← ends_readHeld]
      exact ends_congr fun claim => iff_true_intro (.readClaim claim)
  | readClaimParties claimId =>
      rw [operation, inShape_replied, ← ends_readPartiesHeld]
      exact ends_congr fun parties => iff_true_intro (.readClaimParties parties)
  | write request id now keyedAt =>
      rw [operation, inShape_replied, ← ends_write]
      refine ends_congr fun answer => ⟨?_, .write⟩
      rintro ⟨⟩
      assumption

/-- A request is answered as the contract describes, and an unreachable database told of,
    exactly if the framework reads it, what a rejection names can be written, and the
    database takes everything the operation gets to. -/
theorem contract_iff (arrival : Arrival) (db : Condition) :
    ContractHolds arrival db ↔
      match arrival with
      | .unread _ _ => False
      | .rejected rejectedLocations => Encodable rejectedLocations
      | .handed asked => Carries db asked := by
  unfold ContractHolds
  cases arrival with
  | unread statusCode detail => exact ⟨fun h => absurd h.1 nofun, False.elim⟩
  | rejected rejectedLocations =>
      refine ⟨fun h => (inShape_refused .invalidPayload).mp h.1, fun h => ⟨?_, nofun⟩⟩
      exact (inShape_refused .invalidPayload).mpr h
  | handed asked =>
      refine ⟨fun h => inShape_operation.mp h.1, fun h => ⟨inShape_operation.mpr h, ?_⟩⟩
      rintro _ ⟨⟩ hconnect
      -- Only readiness gets by without a connection, and it says so.
      cases asked with
      | readReadiness =>
          have hready : ¬ ready db = true := by
            have hfails : db.fails .connect = true := by
              simpa only [Condition.Takes, Bool.not_eq_false] using hconnect
            unfold ready Condition.connection Condition.sends
            rw [if_pos hfails]
            exact Bool.false_ne_true
          refine ⟨text "the claims the systems hold are unreachable", ?_⟩
          simp only [serve, operation]
          rw [if_neg hready, refused_of_encodable (encodable_of_printable (by decide))]
      | readPolicy | readClaim | readClaimParties | write => exact absurd h.1.1 hconnect

/-- The database cannot be reached. -/
def unreachable : Condition where
  schemaApplied := false
  fails _ := true
  tables _ := Tables.seeded

/-- A policy number with a zero character, asked of a database that answers. -/
def zeroed : Condition where
  schemaApplied := true
  fails _ := false
  tables _ := Tables.seeded

/-- A database that cannot be reached is not told of by a look-up of a policy, and a zero
    character is not refused as outside the contract. -/
theorem not_contract_unreachable :
    ¬ ContractHolds (.handed (.readPolicy (text "SIM-2026-0001"))) unreachable ∧
      ¬ ContractHolds (.handed (.readPolicy [0])) zeroed := by
  have hcrashed : serve (.handed (.readPolicy (text "SIM-2026-0001"))) unreachable = .crashed := rfl
  have hzero : serve (.handed (.readPolicy [0])) zeroed = .crashed := by decide +kernel
  constructor
  · rintro ⟨hshape, _⟩
    rw [hcrashed] at hshape
    cases hshape
  · rintro ⟨hshape, _⟩
    rw [hzero] at hshape
    cases hshape

end CoreSim

end ClaimTriage
