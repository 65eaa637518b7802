import ClaimTriage.Contract.Client
import ClaimTriage.Theory.Exchange

/-!
# Calls Over the Wire

A call of the contract's client, from its arguments to what it returns or
raises, with the systems' surface at the other end.

The client puts a call's arguments into a path, a header and a JSON text; the
surface matches the path with its routes, binds what the route declares, performs
the operation and answers with a status and a JSON text; the client makes a
model of it, or one of its exceptions. What is between the two should not be
noticed: a call comes to what the store behind the surface comes to, the store's
own refusals raised under the contract's codes.

The text of an answer is in whatever layout the framework writes. What the
framework answers to a request that is outside the contract, and to one the
client never sends, is left open.

## Main definitions

* `ErrorResponse.wire`, `Policy.wire`, `Readiness.wire`, `ClaimStatusUpdate.wire`:
  The models' codecs.
* `Call`, `Call.asking`: The client's methods, and what each of them asks.
* `Asking.request`, `answered`: What crosses the wire, and what is made of the
  answer.
* `arrival`, `reply`, `respond`: The surface, from a request to a response.
* `call`: A call over a transport.
* `Call.outcome`: What the store behind the surface comes to.

## Theorems

* `routed_claims`: Which route a claim's path is matched with.
* `reply_of_request`: A call's arguments arrive as they are.
* `answered_serve`: What the systems come to is told as the store's operation.
* `call_eq_outcome`: A call over the wire is the store's operation.
-/

namespace ClaimTriage

open Theory Text Uri

/-! ### Models -/

/-- The name a code goes by on the wire. -/
def ErrorCode.value : ErrorCode → Str
  | invalidPayload => text "invalid_payload"
  | claimNotFound => text "claim_not_found"
  | policyNotFound => text "policy_not_found"
  | idempotencyKeyReuse => text "idempotency_key_reuse"
  | serviceUnavailable => text "service_unavailable"

/-- A code as its name. -/
def ErrorCode.codec : Codec ErrorCode Str :=
  Codec.named [invalidPayload, claimNotFound, policyNotFound, idempotencyKeyReuse,
    serviceUnavailable] ErrorCode.value (by intro a; cases a <;> decide)
    (by intro a b; cases a <;> cases b <;> decide)

/-- The fields of a failure. -/
def ErrorResponse.fields : List Str :=
  [text "code", text "detail"]

/-- A failure as it is dumped. -/
def ErrorResponse.wire : Codec ErrorResponse Json :=
  (Codec.record fields (ErrorCode.codec.str.cons (Codec.plain.str.cons Codec.nil))
    (by decide) (fun _ => rfl)).comp
    { encode := fun e => (e.code, e.detail, ())
      decode := fun (code, detail, ()) => some ⟨code, detail⟩
      decode_encode := fun _ => rfl }

/-- The fields of a policy. -/
def Policy.fields : List Str :=
  [text "policy_number", text "product_family", text "valid_from"]

/-- A policy as it is dumped. -/
def Policy.wire : Codec Policy Json :=
  (Codec.record fields (Codec.plain.str.cons (Codec.plain.str.cons (Codec.date.str.cons Codec.nil)))
    (by decide) (fun _ => rfl)).comp
    { encode := fun p => (p.policyNumber, p.productFamily, p.validFrom, ())
      decode := fun (number, family, day, ()) => some ⟨number, family, day⟩
      decode_encode := fun _ => rfl }

/-- What a ready system of record answers with, which is always the same. -/
def Readiness.wire : Codec Unit Json :=
  (Codec.record [text "status"]
    ((Codec.named [()] (fun _ => text "ok") (fun _ => List.mem_singleton_self _)
      (fun _ _ _ => rfl)).str.cons Codec.nil) (List.nodup_singleton _) (fun _ => rfl)).comp
    { encode := fun _ => ((), ())
      decode := fun _ => some ()
      decode_encode := fun _ => rfl }

/-- The status the pipeline reports back to the surrounding systems. -/
structure ClaimStatusUpdate where
  status : ClaimStatus
  deriving DecidableEq

/-- A status update as it is dumped. -/
def ClaimStatusUpdate.wire : Codec ClaimStatusUpdate Json :=
  (Codec.record [text "status"] (ClaimStatus.codec.str.cons Codec.nil) (List.nodup_singleton _)
    (fun _ => rfl)).comp
    { encode := fun u => (u.status, ())
      decode := fun (status, ()) => some ⟨status⟩
      decode_encode := fun _ => rfl }

namespace Wire

open CoreSim (Operation Method Reply Condition Body Arrival routed)

/-! ### The client's methods -/

/-- A call of the client, with its arguments. -/
inductive Call where
  | readReadiness
  | readPolicy (policyNumber : Str)
  | createClaim (submission : ClaimSubmission) (idempotencyKey : Str)
  | readClaim (claimId : Uuid)
  | recordClaimStatus (claimId : Uuid) (update : ClaimStatusUpdate) (idempotencyKey : Str)
  | attachClaimDocument (claimId : Uuid) (attachment : ClaimDocumentSubmission)
      (idempotencyKey : Str)
  | readClaimParties (claimId : Uuid)
  | recordClaimParty (claimId : Uuid) (registration : ClaimPartySubmission) (idempotencyKey : Str)

/-- What a method asks: by which method and path, with which key and body, and
    what it expects. -/
structure Asking where
  method : Method
  path : Option Str
  idempotencyKey : Option Str
  body : Option Json
  expected : Nat
  parse : Json → Option Body

/-- A claim's path, and what is under it. -/
def claimPath (claimId : Uuid) (under : Str) : Option Str :=
  (quote claimId.text).map (text "/claims/" ++ · ++ under)

/-- A claim, a document or a party parsed, as what a write answers with. -/
def parseClaim (j : Json) : Option Body :=
  (Claim.wire.decode j).map fun claim => .written (.claim claim)

def parseDocument (j : Json) : Option Body :=
  (ClaimDocument.wire.decode j).map fun document => .written (.document document)

def parseParty (j : Json) : Option Body :=
  (ClaimParty.wire.decode j).map fun party => .written (.party party)

/-- What each method asks. -/
def Call.asking : Call → Asking
  | readReadiness =>
    ⟨.get, some (text "/healthz"), none, none, 200,
      fun j => (Readiness.wire.decode j).map fun _ => .readiness⟩
  | readPolicy policyNumber =>
    ⟨.get, Client.policyPath policyNumber, none, none, 200,
      fun j => (Policy.wire.decode j).map .policy⟩
  | createClaim submission idempotencyKey =>
    ⟨.post, some (text "/claims"), some idempotencyKey,
      some (ClaimSubmission.wire.encode submission), 201, parseClaim⟩
  | readClaim claimId => ⟨.get, claimPath claimId [], none, none, 200, parseClaim⟩
  | recordClaimStatus claimId update idempotencyKey =>
    ⟨.post, claimPath claimId (text "/status"), some idempotencyKey,
      some (ClaimStatusUpdate.wire.encode update), 200, parseClaim⟩
  | attachClaimDocument claimId attachment idempotencyKey =>
    ⟨.post, claimPath claimId (text "/documents"), some idempotencyKey,
      some (ClaimDocumentSubmission.wire.encode attachment), 201, parseDocument⟩
  | readClaimParties claimId =>
    ⟨.get, claimPath claimId (text "/parties"), none, none, 200,
      fun j => (ClaimParty.wire.array.decode j).map .parties⟩
  | recordClaimParty claimId registration idempotencyKey =>
    ⟨.post, claimPath claimId (text "/parties"), some idempotencyKey,
      some (ClaimPartySubmission.wire.encode registration), 201, parseParty⟩

/-! ### What crosses the wire -/

/-- A request as it crosses the wire. -/
structure Request where
  method : Method
  path : Str
  idempotencyKey : Option Str
  body : Option Str

/-- A response as it crosses the wire. -/
structure Response where
  statusCode : Nat
  content : Str

/-- Why a call raises: it cannot be written, or nobody is reached; what is
    answered is not in the contract; or it is refused under one of the contract's
    codes, each of which is an exception of its own. -/
inductive Raise where
  | unencodable
  | unreachable
  | unexpectedResponse (statusCode : Nat)
  | refusal (statusCode : Nat) (error : ErrorResponse)
  deriving DecidableEq

/-- A text the library can write a header's value with. -/
def Ascii (s : Str) : Prop :=
  ∀ c ∈ s, c.val < 0x80

instance (s : Str) : Decidable (Ascii s) :=
  List.decidableBAll _ s

/-- A text that can be written, if there is one. -/
def writtenBody : Option Json → Option (Option Str)
  | none => some none
  | some j =>
    if Value.Encodable (Json.written Value.compact j) then
      some (some (Json.written Value.compact j))
    else none

/-- The request a method sends, if it can be written. -/
def Asking.request (asking : Asking) : Option Request :=
  asking.path.bind fun path =>
    (writtenBody asking.body).bind fun body =>
      if ∀ key ∈ asking.idempotencyKey, Ascii key then
        some ⟨asking.method, removeDotSegments path, asking.idempotencyKey, body⟩
      else none

section Client

variable (read : Str → Str) (frames : Nat)

/-- The answer as JSON, or the failure that says the systems answered something
    else. -/
def document (response : Response) : Except Raise Json :=
  match Json.readText read frames response.content with
  | some j => .ok j
  | none => .error (.unexpectedResponse response.statusCode)

/-- The typed error the contract names for what the systems answered. -/
def refusal (response : Response) : Raise :=
  match document read frames response with
  | .error raise => raise
  | .ok j =>
    match ErrorResponse.wire.decode j with
    | some error => .refusal response.statusCode error
    | none => .unexpectedResponse response.statusCode

/-- What a method makes of an answer: its model, or an exception. -/
def Asking.answered (asking : Asking) (response : Response) : Except Raise Body :=
  if response.statusCode ≠ asking.expected then .error (refusal read frames response)
  else
    (document read frames response).bind fun j =>
      match asking.parse j with
      | some body => .ok body
      | none => .error (.unexpectedResponse response.statusCode)

/-- A call over a transport, which may fail. -/
def call (transport : Request → Option Response) (c : Call) : Except Raise Body :=
  match c.asking.request with
  | none => .error .unencodable
  | some request =>
    match transport request with
    | none => .error .unreachable
    | some response => c.asking.answered read frames response

end Client

/-! ### The surface -/

section Surface

variable (read : Str → Str) (frames : Nat) (l : Value.Layout) (rejection : Request → Str)
  (others : Request → Reply) (drawn : Uuid × Calendar.Moment × Calendar.Moment)

/-- The key of a request, within the bounds its header declares. -/
def Request.key (request : Request) : Option Str :=
  request.idempotencyKey.filter fun key => 1 ≤ key.length ∧ key.length ≤ 128

/-- The body of a request, as the model its route declares. -/
def Request.model {α : Type} (request : Request) (wire : Codec α Json) : Option α :=
  (request.body.bind (Json.readText read frames)).bind wire.decode

/-- A write with what its route declares, or the rejection that says what was
    wrong with it. -/
def handed (request : Request) (call : Option CoreSim.Call) : Arrival :=
  match call, request.key with
  | some call, some key => .handed (.write ⟨call, key⟩ drawn.1 drawn.2.1 drawn.2.2)
  | _, _ => .rejected (rejection request)

/-- What a route makes of a request: its path's holes, its key and its body. The
    framework's own routes have none of ours. -/
def arrival (request : Request) : Operation → List Str → Option Arrival
  | .readReadiness, [] => some (.handed .readReadiness)
  | .readPolicy, [policyNumber] => some (Client.arrival policyNumber)
  | .createClaim, [] =>
    some (handed rejection drawn request
      ((request.model read frames ClaimSubmission.wire).map .create))
  | .readClaim, [claimId] =>
    some (match Uuid.ofText claimId with
      | some claimId => .handed (.readClaim claimId)
      | none => .rejected (rejection request))
  | .recordClaimStatus, [claimId] =>
    some (handed rejection drawn request ((Uuid.ofText claimId).bind fun claimId =>
      (request.model read frames ClaimStatusUpdate.wire).map fun update =>
        .recordStatus claimId update.status))
  | .attachClaimDocument, [claimId] =>
    some (handed rejection drawn request ((Uuid.ofText claimId).bind fun claimId =>
      (request.model read frames ClaimDocumentSubmission.wire).map (.attachDocument claimId)))
  | .readClaimParties, [claimId] =>
    some (match Uuid.ofText claimId with
      | some claimId => .handed (.readClaimParties claimId)
      | none => .rejected (rejection request))
  | .recordClaimParty, [claimId] =>
    some (handed rejection drawn request ((Uuid.ofText claimId).bind fun claimId =>
      (request.model read frames ClaimPartySubmission.wire).map (.recordParty claimId)))
  | _, _ => none

/-- What the surface makes of a request, over a database in some condition. -/
def reply (db : Condition) (request : Request) : Reply :=
  match unquote request.path with
  | none => others request
  | some path =>
    match routed request.method path with
    | .error statusCode => .unread statusCode (CoreSim.frameworkDetail statusCode)
    | .ok (operation, holes) =>
      match arrival read frames rejection drawn request operation holes with
      | some arrival => CoreSim.serve arrival db
      | none => others request

/-- The document of an answer's body. -/
def documentOf : Body → Json
  | .readiness => Readiness.wire.encode ()
  | .policy policy => Policy.wire.encode policy
  | .parties parties => ClaimParty.wire.array.encode parties
  | .written answer => answer.modelDump

/-- What the server answers with where nothing answers: a text that is no JSON. -/
def crash : Response :=
  ⟨500, text "Internal Server Error"⟩

/-- A reply as it crosses the wire. -/
def respond : Reply → Response
  | .answered statusCode body =>
    if Value.Encodable (Json.written l (documentOf body)) then
      ⟨statusCode, Json.written l (documentOf body)⟩
    else crash
  | .failed statusCode error => ⟨statusCode, Json.written l (ErrorResponse.wire.encode error)⟩
  | .unread statusCode detail =>
    ⟨statusCode, Json.written l (.obj [(text "detail", .str detail)])⟩
  | .crashed => crash

/-- The surface as a transport that reaches it. -/
def reaching (db : Condition) (request : Request) : Option Response :=
  some (respond l (reply read frames rejection others drawn db request))

end Surface

/-! ### What the store comes to -/

/-- The exception the client raises for what the store does: for each of its own
    refusals the one of its code, and for anything else that the answer is none
    of the contract's. -/
def raiseOf (raised : CoreSim.Raised) : Raise :=
  match raised, raised.message with
  | .claimNotFound _, some message => .refusal 404 ⟨.claimNotFound, message⟩
  | .policyNotFound _, some message => .refusal 404 ⟨.policyNotFound, message⟩
  | .idempotencyKeyReuse _, some message => .refusal 409 ⟨.idempotencyKeyReuse, message⟩
  | _, _ => .unexpectedResponse 500

/-- What the client makes of what the store returns or raises, where the answer
    can be written at all. -/
def told {α : Type} (body : α → Body) : Except CoreSim.Raised α → Except Raise Body
  | .ok a =>
    if (documentOf (body a)).Writable then .ok (body a)
    else .error (.unexpectedResponse 500)
  | .error raised => .error (raiseOf raised)

/-- What the store behind the surface comes to for a call. -/
def Call.outcome (drawn : Uuid × Calendar.Moment × Calendar.Moment)
    (db : Condition) : Call → Except Raise Body
  | readReadiness =>
    if CoreSim.ready db then .ok .readiness
    else .error (.refusal 503 ⟨.serviceUnavailable,
      text "the claims the systems hold are unreachable"⟩)
  | readPolicy policyNumber => told .policy (CoreSim.readPolicy db policyNumber)
  | readClaim claimId =>
    told (fun claim => .written (.claim claim)) (CoreSim.readHeld db claimId)
  | readClaimParties claimId => told .parties (CoreSim.readPartiesHeld db claimId)
  | createClaim submission key =>
    told .written (CoreSim.write db ⟨.create submission, key⟩ drawn.1 drawn.2.1 drawn.2.2)
  | recordClaimStatus claimId update key =>
    told .written
      (CoreSim.write db ⟨.recordStatus claimId update.status, key⟩ drawn.1 drawn.2.1 drawn.2.2)
  | attachClaimDocument claimId attachment key =>
    told .written
      (CoreSim.write db ⟨.attachDocument claimId attachment, key⟩ drawn.1 drawn.2.1 drawn.2.2)
  | recordClaimParty claimId registration key =>
    told .written
      (CoreSim.write db ⟨.recordParty claimId registration, key⟩ drawn.1 drawn.2.1 drawn.2.2)

/-! ### Requests -/

/-- A key the header carries as it is: of the length the contract declares, and
    without blanks at its ends, which are no part of a header's value. -/
def Keyed (key : Str) : Prop :=
  (1 ≤ key.length ∧ key.length ≤ 128) ∧ Printable key ∧ key.head? ≠ some 0x20 ∧
    key.getLast? ≠ some 0x20

/-- The call is within the contract, and its texts can cross the wire. -/
def Call.Carried : Call → Prop
  | readReadiness | readClaim _ | readClaimParties _ => True
  | readPolicy policyNumber =>
    (1 ≤ policyNumber.length ∧ policyNumber.length ≤ 64) ∧ Scalars policyNumber ∧
      Client.Segment policyNumber
  | createClaim submission key => Value.Encodable submission.policyNumber ∧ Keyed key
  | attachClaimDocument _ attachment key =>
    (Value.Encodable attachment.documentType ∧ Value.Encodable attachment.filename) ∧ Keyed key
  | recordClaimStatus _ _ key | recordClaimParty _ _ key => Keyed key

/-- What the store is asked for a call. -/
def Call.asked (drawn : Uuid × Calendar.Moment × Calendar.Moment) : Call → CoreSim.Asked
  | readReadiness => .readReadiness
  | readPolicy policyNumber => .readPolicy policyNumber
  | readClaim claimId => .readClaim claimId
  | readClaimParties claimId => .readClaimParties claimId
  | createClaim submission key => .write ⟨.create submission, key⟩ drawn.1 drawn.2.1 drawn.2.2
  | recordClaimStatus claimId update key =>
    .write ⟨.recordStatus claimId update.status, key⟩ drawn.1 drawn.2.1 drawn.2.2
  | attachClaimDocument claimId attachment key =>
    .write ⟨.attachDocument claimId attachment, key⟩ drawn.1 drawn.2.1 drawn.2.2
  | recordClaimParty claimId registration key =>
    .write ⟨.recordParty claimId registration, key⟩ drawn.1 drawn.2.1 drawn.2.2

theorem unreserved_of_all {s : Str} (h : s.all fun c => decide (Unreserved c.val)) :
    ∀ c ∈ s, Unreserved c.val :=
  fun c hc => of_decide_eq_true (List.all_eq_true.mp h c hc)

/-- An identifier's characters stand in a path as they are. -/
theorem unreserved_text (id : Uuid) : ∀ c ∈ id.text, Unreserved c.val := by
  have hdigit : ∀ d < 16, Unreserved (Numeral.digit d).val := by decide
  have hhex : ∀ w n, ∀ c ∈ Numeral.fixed 16 w n, Unreserved c.val := by
    intro w
    induction w with
    | zero => exact fun _ => List.forall_mem_nil _
    | succ w ih =>
        intro n c hc
        rcases List.mem_append.mp hc with hc | hc
        · exact ih _ c hc
        · rw [List.mem_singleton.mp hc]
          exact hdigit _ (Nat.mod_lt _ (by decide))
  have hhyphen : Unreserved Uuid.hyphen.val := by decide
  intro c hc
  by_cases h : c = Uuid.hyphen
  · rw [h]
    exact hhyphen
  · have hmem : c ∈ id.text.filter (· ≠ Uuid.hyphen) :=
      List.mem_filter.mpr ⟨hc, decide_eq_true h⟩
    rw [Uuid.filter_text] at hmem
    exact hhex 32 id.int c hmem

theorem length_text (id : Uuid) : id.text.length = 36 := by
  simp only [Uuid.text, List.length_append, List.length_cons, List.length_take,
    List.length_drop, Numeral.length_fixed]
  omega

/-- An identifier is a segment, and no dot segment. -/
theorem segment_text (id : Uuid) :
    slash ∉ id.text ∧ id.text ≠ [] ∧ id.text ≠ dot ∧ id.text ≠ dots := by
  have hslash : ¬ Unreserved slash.val := by decide
  have hlength := length_text id
  have hne : ∀ s : Str, s.length < 36 → id.text ≠ s := by
    rintro s hs rfl
    omega
  exact ⟨fun h => hslash (unreserved_text id _ h), hne [] (by decide), hne dot (by decide),
    hne dots (by decide)⟩

theorem claimPath_eq (claimId : Uuid) (under : Str) :
    claimPath claimId under =
      some (slash :: (text "claims" ++ slash :: (claimId.text ++ under))) := by
  have hpath : text "/claims/" = slash :: (text "claims" ++ [slash]) := by decide
  rw [claimPath, quote_of_unreserved (unreserved_text claimId), Option.map_some, hpath]
  simp only [List.cons_append, List.append_assoc, List.nil_append]

/-! ### Routing -/

theorem captured_slash (path : Str) (template : List Part) :
    CoreSim.captured (slash :: path) template = Part.matchAll template (segments path) := by
  rw [CoreSim.captured, if_pos rfl]

/-- A path is matched with the first route its segments are of. -/
theorem routed_of_matchAll {method : Method} {path : Str} {matched : Operation × List Str}
    (h : (CoreSim.routes.findSome? fun (operation, served, template) =>
      if served = method then (Part.matchAll template (segments path)).map (operation, ·)
      else none) = some matched) : routed method (slash :: path) = .ok matched := by
  unfold routed
  simp only [captured_slash, h]

/-- A segment that is another text is not matched. -/
theorem matchAll_lit_ne {s t : Str} (h : s ≠ t) (parts : List Part) (segs : List Str) :
    Part.matchAll (.lit s :: parts) (t :: segs) = none := by
  rw [Part.matchAll, if_neg h]

theorem matchAll_lit (s : Str) (parts : List Part) (segs : List Str) :
    Part.matchAll (.lit s :: parts) (s :: segs) = Part.matchAll parts segs := by
  rw [Part.matchAll, if_pos rfl]

/-- What is served under the paths of claims. -/
def claimRoutes : List (Operation × Method × List Part) :=
  [(.createClaim, .post, []), (.readClaim, .get, [.hole]),
    (.recordClaimStatus, .post, [.hole, .lit (text "status")]),
    (.attachClaimDocument, .post, [.hole, .lit (text "documents")]),
    (.readClaimParties, .get, [.hole, .lit (text "parties")]),
    (.recordClaimParty, .post, [.hole, .lit (text "parties")])]

/-- A path of claims is matched with the routes of claims. -/
theorem routed_claims {method : Method} {path : Str} {segs : List Str}
    {matched : Operation × List Str} (hsegs : segments path = text "claims" :: segs)
    (h : (claimRoutes.findSome? fun (operation, served, template) =>
      if served = method then (Part.matchAll template segs).map (operation, ·)
      else none) = some matched) : routed method (slash :: path) = .ok matched := by
  refine routed_of_matchAll ?_
  rw [hsegs]
  simp only [CoreSim.routes, claimRoutes, List.findSome?_cons, List.findSome?_nil, matchAll_lit,
    matchAll_lit_ne (s := text "openapi.json") (t := text "claims") (by decide),
    matchAll_lit_ne (s := text "docs") (t := text "claims") (by decide),
    matchAll_lit_ne (s := text "redoc") (t := text "claims") (by decide),
    matchAll_lit_ne (s := text "healthz") (t := text "claims") (by decide),
    matchAll_lit_ne (s := text "policies") (t := text "claims") (by decide),
    Option.map_none, ite_self] at h ⊢
  exact h

/-- What is served at a claim's path, and under it. -/
theorem matched_claim {id : Str} (h : id ≠ []) :
    (claimRoutes.findSome? fun (operation, served, template) =>
      if served = Method.get then (Part.matchAll template [id]).map (operation, ·) else none) =
      some (.readClaim, [id]) := by
  simp only [claimRoutes, List.findSome?_cons, Part.matchAll, h, reduceCtorEq, if_false, if_true,
    Option.map_some, Option.map_none]

theorem matched_under {id under : Str} (h : id ≠ []) {method : Method} {operation : Operation}
    (hmatched : (method, under, operation) ∈
      [(.post, text "status", .recordClaimStatus), (.post, text "documents", .attachClaimDocument),
        (.get, text "parties", .readClaimParties), (.post, text "parties", .recordClaimParty)]) :
    (claimRoutes.findSome? fun (operation, served, template) =>
      if served = method then (Part.matchAll template [id, under]).map (operation, ·) else none) =
      some (operation, [id]) := by
  have hdocuments : text "status" ≠ text "documents" ∧ text "parties" ≠ text "documents" := by
    decide
  have hparties : text "status" ≠ text "parties" ∧ text "documents" ≠ text "parties" := by decide
  simp only [List.mem_cons, Prod.mk.injEq, List.not_mem_nil, or_false] at hmatched
  rcases hmatched with ⟨rfl, rfl, rfl⟩ | ⟨rfl, rfl, rfl⟩ | ⟨rfl, rfl, rfl⟩ | ⟨rfl, rfl, rfl⟩ <;>
    simp only [claimRoutes, List.findSome?_cons, Part.matchAll, h, reduceCtorEq, if_false, if_true,
      Option.map_some, Option.map_none, hdocuments, hparties]

/-- A path is sent and read as it is if its characters and segments are plain. -/
theorem sent_and_read {path : Str} (hplain : ∀ c ∈ path, Unreserved c.val ∨ c = slash)
    (hdots : ∀ s ∈ segments path, s ≠ dot ∧ s ≠ dots) :
    removeDotSegments (slash :: path) = slash :: path ∧
      unquote (slash :: path) = some (slash :: path) := by
  have hall : ∀ c ∈ slash :: path, Unreserved c.val ∨ c = slash :=
    List.forall_mem_cons.mpr ⟨Or.inr rfl, hplain⟩
  refine ⟨removeDotSegments_of_plain hdots, unquote_of_plain ?_ ?_⟩
  · intro c hc
    rcases hall c hc with hc | rfl
    · exact (quoteByte_of_unreserved hc).1
    · decide
  · intro hpercent
    rcases hall _ hpercent with h | h
    · exact absurd h (by decide)
    · exact absurd h (by decide)

/-- The segments of a claim's path. -/
theorem segments_claim (claimId : Uuid) :
    segments (text "claims" ++ slash :: (claimId.text ++ [])) = [text "claims", claimId.text] := by
  rw [List.append_nil, segments, List.splitOn_append_cons_self_of_not_mem (by decide),
    List.splitOn_eq_singleton (segment_text claimId).1]

/-- The segments of a path under a claim's. -/
theorem segments_under (claimId : Uuid) {under : Str} (h : slash ∉ under) :
    segments (text "claims" ++ slash :: (claimId.text ++ slash :: under)) =
      [text "claims", claimId.text, under] := by
  rw [segments, List.splitOn_append_cons_self_of_not_mem (by decide),
    List.splitOn_append_cons_self_of_not_mem (segment_text claimId).1,
    List.splitOn_eq_singleton h]

/-! ### Documents that come through -/

theorem plain_submission (s : ClaimSubmission) : (ClaimSubmission.wire.encode s).Plain 1 :=
  Codec.plain_record (by decide) (fun _ => rfl)
    (List.forall_mem_cons.mpr ⟨trivial, List.forall_mem_cons.mpr
      ⟨trivial, List.forall_mem_singleton.mpr trivial⟩⟩)

theorem plain_update (u : ClaimStatusUpdate) : (ClaimStatusUpdate.wire.encode u).Plain 1 :=
  Codec.plain_record (by decide) (fun _ => rfl) (List.forall_mem_singleton.mpr trivial)

theorem plain_attachment (d : ClaimDocumentSubmission) :
    (ClaimDocumentSubmission.wire.encode d).Plain 1 :=
  Codec.plain_record (by decide) (fun _ => rfl)
    (List.forall_mem_cons.mpr ⟨trivial, List.forall_mem_singleton.mpr trivial⟩)

theorem plain_registration (p : ClaimPartySubmission) :
    (ClaimPartySubmission.wire.encode p).Plain 1 :=
  Codec.plain_record (by decide) (fun _ => rfl) (List.forall_mem_singleton.mpr trivial)

theorem plain_error (e : ErrorResponse) : (ErrorResponse.wire.encode e).Plain 1 :=
  Codec.plain_record (by decide) (fun _ => rfl)
    (List.forall_mem_cons.mpr ⟨trivial, List.forall_mem_singleton.mpr trivial⟩)

theorem plain_transition (t : ClaimStatusTransition) :
    (ClaimStatusTransition.wire.encode t).Plain 1 :=
  Codec.plain_record (by decide) (fun _ => rfl)
    (List.forall_mem_cons.mpr ⟨trivial, List.forall_mem_singleton.mpr trivial⟩)

theorem plain_claim (c : Claim) : (Claim.wire.encode c).Plain 3 := by
  have hhistory : (ClaimStatusTransition.wire.array.encode c.statusHistory).Plain 2 :=
    Codec.plain_array fun t _ => plain_transition t
  refine Codec.plain_record (by decide) (fun _ => rfl) ?_
  exact List.forall_mem_cons.mpr ⟨trivial, List.forall_mem_cons.mpr ⟨trivial,
    List.forall_mem_cons.mpr ⟨trivial, List.forall_mem_cons.mpr ⟨trivial,
      List.forall_mem_cons.mpr ⟨trivial, List.forall_mem_singleton.mpr hhistory⟩⟩⟩⟩⟩

theorem plain_document (d : ClaimDocument) : (ClaimDocument.wire.encode d).Plain 1 :=
  Codec.plain_record (by decide) (fun _ => rfl)
    (List.forall_mem_cons.mpr ⟨trivial, List.forall_mem_cons.mpr ⟨trivial,
      List.forall_mem_cons.mpr ⟨trivial, List.forall_mem_cons.mpr ⟨trivial,
        List.forall_mem_singleton.mpr trivial⟩⟩⟩⟩)

theorem plain_party (p : ClaimParty) : (ClaimParty.wire.encode p).Plain 1 :=
  Codec.plain_record (by decide) (fun _ => rfl)
    (List.forall_mem_cons.mpr ⟨trivial, List.forall_mem_cons.mpr ⟨trivial,
      List.forall_mem_cons.mpr ⟨trivial, List.forall_mem_singleton.mpr trivial⟩⟩⟩)

theorem plain_policy (p : Policy) : (Policy.wire.encode p).Plain 1 :=
  Codec.plain_record (by decide) (fun _ => rfl)
    (List.forall_mem_cons.mpr ⟨trivial, List.forall_mem_cons.mpr ⟨trivial,
      List.forall_mem_singleton.mpr trivial⟩⟩)

/-- What a body is dumped as has three brackets in one another at most. -/
theorem exists_plain_documentOf (body : Body) : ∃ depth ≤ 3, (documentOf body).Plain depth := by
  cases body with
  | readiness =>
      exact ⟨1, by decide, Codec.plain_record (List.nodup_singleton _) (fun _ => rfl)
        (List.forall_mem_singleton.mpr trivial)⟩
  | policy policy => exact ⟨1, by decide, plain_policy policy⟩
  | parties parties => exact ⟨2, by decide, Codec.plain_array fun p _ => plain_party p⟩
  | written answer =>
      cases answer with
      | claim claim => exact ⟨3, le_rfl, plain_claim claim⟩
      | document document => exact ⟨1, by decide, plain_document document⟩
      | party party => exact ⟨1, by decide, plain_party party⟩

/-! ### What arrives -/

theorem writable_submission {s : ClaimSubmission} (h : Value.Encodable s.policyNumber) :
    (ClaimSubmission.wire.encode s).Writable := by
  have hday := Boundary.encodable_of_printable s.incidentDate.isoformat_printable
  have hamount := Boundary.encodable_of_printable s.claimAmountEur.value.printable_text
  refine (Codec.writable_record (by decide) (fun _ => rfl) (by decide)).mpr ?_
  exact List.forall_mem_cons.mpr ⟨Json.writable_str.mpr h, List.forall_mem_cons.mpr
    ⟨Json.writable_str.mpr hday, List.forall_mem_singleton.mpr (Json.writable_str.mpr hamount)⟩⟩

theorem writable_update (u : ClaimStatusUpdate) : (ClaimStatusUpdate.wire.encode u).Writable := by
  have hstatus : Value.Encodable u.status.value := by
    cases u.status <;> decide
  refine (Codec.writable_record (List.nodup_singleton _) (fun _ => rfl) (by decide)).mpr ?_
  exact List.forall_mem_singleton.mpr (Json.writable_str.mpr hstatus)

theorem writable_attachment {d : ClaimDocumentSubmission}
    (h : Value.Encodable d.documentType ∧ Value.Encodable d.filename) :
    (ClaimDocumentSubmission.wire.encode d).Writable := by
  refine (Codec.writable_record (by decide) (fun _ => rfl) (by decide)).mpr ?_
  exact List.forall_mem_cons.mpr ⟨Json.writable_str.mpr h.1,
    List.forall_mem_singleton.mpr (Json.writable_str.mpr h.2)⟩

theorem writable_registration (p : ClaimPartySubmission) :
    (ClaimPartySubmission.wire.encode p).Writable := by
  have hrole : Value.Encodable p.role.value := by
    cases p.role <;> decide
  refine (Codec.writable_record (by decide) (fun _ => rfl) (by decide)).mpr ?_
  exact List.forall_mem_singleton.mpr (Json.writable_str.mpr hrole)

theorem writtenBody_of_writable {j : Json} (h : j.Writable) :
    writtenBody (some j) = some (some (Json.written Value.compact j)) :=
  if_pos (Json.encodable_written.mpr h)

theorem ascii_of_keyed {key : Str} (h : Keyed key) : Ascii key := by
  intro c hc
  have hrange := h.2.1 c hc
  omega

/-- A key arrives as it is. -/
theorem key_of_keyed {method : Method} {path key : Str} {body : Option Str} (h : Keyed key) :
    Request.key ⟨method, path, some key, body⟩ = some key := by
  rw [Request.key, Option.filter_some, if_pos (decide_eq_true h.1)]

/-- A body arrives as it is. -/
theorem model_of_written {α : Type} (read : Str → Str) {frames depth : Nat} (hle : depth ≤ frames)
    {wire : Codec α Json} {a : α} (hplain : (wire.encode a).Plain depth) {method : Method}
    {path : Str} {key : Option Str} :
    Request.model read frames
      ⟨method, path, key, some (Json.written Value.compact (wire.encode a))⟩ wire = some a := by
  rw [Request.model, Option.bind_some, Json.readText_written read _ hle hplain, Option.bind_some,
    wire.decode_encode]

section Arrives

variable {read : Str → Str} {frames : Nat} (hframes : 3 ≤ frames) {rejection : Request → Str}
  {others : Request → Reply} {drawn : Uuid × Calendar.Moment × Calendar.Moment} {db : Condition}

/-- The request of a call with a path that is sent and read as it is, and what the
    systems make of it. -/
theorem exists_request {method : Method} {sent : Option Str} {key : Option Str}
    {json : Option Json} {expected : Nat} {parse : Json → Option Body} {body : Option Str}
    {asked : CoreSim.Asked} (path : Str) (matched : Operation × List Str)
    (hpath : sent = some (slash :: path))
    (hplain : ∀ c ∈ path, Unreserved c.val ∨ c = slash)
    (hdots : ∀ s ∈ segments path, s ≠ dot ∧ s ≠ dots)
    (hbody : writtenBody json = some body) (hkey : ∀ k ∈ key, Ascii k)
    (hrouted : routed method (slash :: path) = .ok matched)
    (harrival : arrival read frames rejection drawn ⟨method, slash :: path, key, body⟩ matched.1
      matched.2 = some (.handed asked)) :
    ∃ request, Asking.request ⟨method, sent, key, json, expected, parse⟩ = some request ∧
      reply read frames rejection others drawn db request = CoreSim.serve (.handed asked) db := by
  rcases sent_and_read hplain hdots with ⟨hsent, hread⟩
  refine ⟨⟨method, slash :: path, key, body⟩, ?_, ?_⟩
  · rw [Asking.request, hpath, Option.bind_some, hbody, Option.bind_some, if_pos hkey, hsent]
  · simp only [reply, hread, hrouted, harrival]

/-- The path of a claim, or one under it, is sent and read as it is. -/
theorem plain_claimPath (claimId : Uuid) {under : Str}
    (hunder : ∀ c ∈ under, Unreserved c.val ∨ c = slash) :
    ∀ c ∈ text "claims" ++ slash :: (claimId.text ++ under), Unreserved c.val ∨ c = slash := by
  have hclaims : ∀ c ∈ text "claims", Unreserved c.val := unreserved_of_all (by decide)
  intro c hc
  rcases List.mem_append.mp hc with hc | hc
  · exact Or.inl (hclaims c hc)
  · rcases List.mem_cons.mp hc with rfl | hc
    · exact Or.inr rfl
    · rcases List.mem_append.mp hc with hc | hc
      · exact Or.inl (unreserved_text claimId c hc)
      · exact hunder c hc

/-- A call about a claim reaches the route of its method under the claim's path. -/
theorem exists_request_under {method : Method} {claimId : Uuid} {key : Option Str}
    {json : Option Json} {expected : Nat} {parse : Json → Option Body} {body : Option Str}
    {asked : CoreSim.Asked} (under : Str) (operation : Operation)
    (hunder : (method, under, operation) ∈
      [(.post, text "status", .recordClaimStatus), (.post, text "documents", .attachClaimDocument),
        (.get, text "parties", .readClaimParties), (.post, text "parties", .recordClaimParty)])
    (hbody : writtenBody json = some body) (hkey : ∀ k ∈ key, Ascii k)
    (harrival : ∀ path, arrival read frames rejection drawn ⟨method, path, key, body⟩ operation
      [claimId.text] = some (.handed asked)) :
    ∃ request, Asking.request
        ⟨method, claimPath claimId (slash :: under), key, json, expected, parse⟩ = some request ∧
      reply read frames rejection others drawn db request = CoreSim.serve (.handed asked) db := by
  have hplain : (slash ∉ under ∧ under ≠ dot ∧ under ≠ dots) ∧
      ∀ c ∈ under, Unreserved c.val := by
    simp only [List.mem_cons, Prod.mk.injEq, List.not_mem_nil, or_false] at hunder
    rcases hunder with ⟨_, rfl, _⟩ | ⟨_, rfl, _⟩ | ⟨_, rfl, _⟩ | ⟨_, rfl, _⟩ <;>
      exact ⟨by decide, unreserved_of_all (by decide)⟩
  have hsegments := segments_under claimId hplain.1.1
  refine exists_request _ (operation, [claimId.text]) (claimPath_eq claimId (slash :: under))
    (plain_claimPath claimId ?_) ?_ hbody hkey
    (routed_claims hsegments (matched_under (segment_text claimId).2.1 hunder)) (harrival _)
  · exact List.forall_mem_cons.mpr ⟨Or.inr rfl, fun c hc => Or.inl (hplain.2 c hc)⟩
  · rw [hsegments]
    exact List.forall_mem_cons.mpr ⟨by decide, List.forall_mem_cons.mpr
      ⟨(segment_text claimId).2.2, List.forall_mem_singleton.mpr hplain.1.2⟩⟩

/-- A policy is asked for at the route of policies, by its number. -/
theorem reply_of_policy {policyNumber : Str} (hc : (Call.readPolicy policyNumber).Carried) :
    ∃ request, (Call.readPolicy policyNumber).asking.request = some request ∧
      reply read frames rejection others drawn db request =
        CoreSim.serve (.handed (.readPolicy policyNumber)) db := by
  rcases hc with ⟨hlength, hscalars, hsegment⟩
  have hne : policyNumber ≠ [] := List.ne_nil_of_length_pos hlength.1
  have harrives : Client.addressed policyNumber = _ :=
    (Client.arrives_iff hne).mpr ⟨hscalars, hsegment⟩
  have harrival : Client.arrival policyNumber = .handed (.readPolicy policyNumber) := by
    rw [Client.arrival, if_neg (by omega), if_neg (by omega)]
  rcases Option.bind_eq_some_iff.mp harrives with ⟨path, hpath, hmatched⟩
  rcases Option.bind_eq_some_iff.mp hmatched with ⟨readPath, hread, hrouted⟩
  refine ⟨⟨.get, removeDotSegments path, none, none⟩, ?_, ?_⟩
  · simp only [Call.asking, Asking.request, hpath, Option.bind_some, writtenBody]
    exact if_pos fun k hk => by cases hk
  · simp only [reply, hread, Option.some.inj hrouted, arrival, harrival]

include hframes

/-- What a call within the contract is about arrives as it is. -/
theorem reply_of_request {c : Call} (hc : c.Carried) :
    ∃ request, c.asking.request = some request ∧
      reply read frames rejection others drawn db request =
        CoreSim.serve (.handed (c.asked drawn)) db := by
  have hascii : ∀ {key}, Keyed key → ∀ k ∈ some key, Ascii k := by
    rintro key hkey _ ⟨⟩
    exact ascii_of_keyed hkey
  have hone : 1 ≤ frames := (by decide : 1 ≤ 3).trans hframes
  have hstatus : text "/status" = slash :: text "status" := by decide
  have hdocuments : text "/documents" = slash :: text "documents" := by decide
  have hparties : text "/parties" = slash :: text "parties" := by decide
  cases c with
  | readReadiness =>
      have hsegments : segments (text "healthz") = [text "healthz"] := by decide
      simp only [Call.asking, Call.asked]
      refine exists_request (text "healthz") (.readReadiness, []) rfl
        (fun c hc => Or.inl (unreserved_of_all (by decide) c hc)) ?_ rfl (fun k hk => by cases hk)
        (routed_of_matchAll (by decide +kernel)) rfl
      rw [hsegments]
      exact List.forall_mem_singleton.mpr (by decide)
  | readPolicy policyNumber => exact reply_of_policy hc
  | createClaim submission key =>
      have hsegments : segments (text "claims") = [text "claims"] := by decide
      simp only [Call.asking, Call.asked]
      refine exists_request (text "claims") (.createClaim, []) rfl
        (fun c hc => Or.inl (unreserved_of_all (by decide) c hc)) ?_
        (writtenBody_of_writable (writable_submission hc.1)) (hascii hc.2)
        (routed_claims hsegments rfl) ?_
      · rw [hsegments]
        exact List.forall_mem_singleton.mpr (by decide)
      · simp only [arrival, handed, key_of_keyed hc.2,
          model_of_written read hone (plain_submission submission), Option.map_some]
  | readClaim claimId =>
      have hsegments := segments_claim claimId
      simp only [Call.asking, Call.asked]
      refine exists_request _ (.readClaim, [claimId.text]) (claimPath_eq claimId [])
        (plain_claimPath claimId (List.forall_mem_nil _)) ?_ rfl (fun k hk => by cases hk)
        (routed_claims hsegments (matched_claim (segment_text claimId).2.1)) ?_
      · rw [hsegments]
        exact List.forall_mem_cons.mpr ⟨by decide,
          List.forall_mem_singleton.mpr (segment_text claimId).2.2⟩
      · simp only [arrival, Uuid.ofText_text]
  | recordClaimStatus claimId update key =>
      simp only [Call.asking, Call.asked, hstatus]
      refine exists_request_under (text "status") .recordClaimStatus (by simp)
        (writtenBody_of_writable (writable_update update)) (hascii hc) fun path => ?_
      simp only [arrival, handed, key_of_keyed hc, Uuid.ofText_text, Option.bind_some,
        model_of_written read hone (plain_update update), Option.map_some]
  | attachClaimDocument claimId attachment key =>
      simp only [Call.asking, Call.asked, hdocuments]
      refine exists_request_under (text "documents") .attachClaimDocument (by simp)
        (writtenBody_of_writable (writable_attachment hc.1)) (hascii hc.2) fun path => ?_
      simp only [arrival, handed, key_of_keyed hc.2, Uuid.ofText_text, Option.bind_some,
        model_of_written read hone (plain_attachment attachment), Option.map_some]
  | readClaimParties claimId =>
      simp only [Call.asking, Call.asked, hparties]
      refine exists_request_under (text "parties") .readClaimParties (by simp) rfl
        (fun k hk => by cases hk) fun path => ?_
      simp only [arrival, Uuid.ofText_text]
  | recordClaimParty claimId registration key =>
      simp only [Call.asking, Call.asked, hparties]
      refine exists_request_under (text "parties") .recordClaimParty (by simp)
        (writtenBody_of_writable (writable_registration registration)) (hascii hc) fun path => ?_
      simp only [arrival, handed, key_of_keyed hc, Uuid.ofText_text, Option.bind_some,
        model_of_written read hone (plain_registration registration), Option.map_some]

end Arrives

/-! ### What the store raises -/

/-- What is raised has no message, or one that can be written. -/
def Worded (raised : CoreSim.Raised) : Prop :=
  ∀ message, raised.message = some message → Boundary.Encodable message

section Worded

variable {α : Type} {P : α → Prop} {db : Condition}

theorem worded_of_message {raised : CoreSim.Raised} (h : raised.message = none) :
    Worded raised := by
  intro message hmessage
  rw [h] at hmessage
  cases hmessage

theorem worded_of_told {raised : CoreSim.Raised} (h : raised.Told) : Worded raised := by
  rcases h with ⟨message, hmessage, hencodable⟩
  intro other hother
  rw [hmessage] at hother
  cases hother
  exact hencodable

theorem ends_of_told {x : Except CoreSim.Raised α} (h : Failing.Ends CoreSim.Raised.Told P x) :
    Failing.Ends Worded P x := by
  cases x with
  | ok a => exact h
  | error raised => exact worded_of_told h

theorem ends_sends {place : CoreSim.Place} :
    Failing.Ends Worded (fun _ => True) (db.sends place) := by
  unfold Condition.sends
  split
  · exact worded_of_message rfl
  · trivial

theorem ends_applySchema : Failing.Ends Worded (fun _ => True) db.applySchema := by
  have hforM : ∀ l : List Nat, Failing.Ends Worded (fun _ => True)
      (l.forM fun n => do let _ ← db.sends (.schema n)) := by
    intro l
    induction l with
    | nil => trivial
    | cons n l ih =>
        exact Failing.ends_bind_of (Failing.ends_bind_of ends_sends fun _ _ => trivial)
          fun _ _ => ih
  unfold Condition.applySchema
  split
  · trivial
  · exact hforM _

/-- A connection raises nothing else with a message than what is done over it. -/
theorem ends_connection {body : Except CoreSim.Raised α} (h : Failing.Ends Worded P body) :
    Failing.Ends Worded P (db.connection body) := by
  refine Failing.ends_bind_of ends_sends fun _ _ => ?_
  refine Failing.ends_bind_of ends_applySchema fun _ _ => ?_
  rcases Failing.ends_iff.mp h with ⟨hends, hp⟩
  refine Failing.ends_bind_of hends fun a ha => ?_
  exact Failing.ends_bind_of ends_sends fun _ _ => hp a ha

theorem ends_check {t : CoreSim.Tables} {call : CoreSim.Call} :
    Failing.Ends Worded (CoreSim.Finds t call) (CoreSim.check t call) := by
  by_cases hstorable : ∀ submission, call = .create submission →
      Theory.Storable submission.policyNumber
  · exact ends_of_told (CoreSim.ends_check.mpr ⟨hstorable, fun _ hdraft => hdraft⟩)
  · -- A number no column takes is refused by the driver.
    rcases Classical.not_forall.mp hstorable with ⟨submission, hsubmission⟩
    rcases Classical.not_imp.mp hsubmission with ⟨rfl, hnot⟩
    rw [CoreSim.check, if_neg hnot]
    exact worded_of_message rfl

theorem ends_replayed {row : CoreSim.KeyRow} {request : CoreSim.Request}
    (hkey : Theory.Storable request.key) :
    Failing.Ends Worded request.call.Answers (CoreSim.replayed row request) := by
  unfold CoreSim.replayed
  split
  · exact worded_of_told (CoreSim.told_idempotencyKeyReuse hkey)
  · cases hread : (jsonb.apply row.response).bind request.call.validate with
    | none => exact worded_of_message rfl
    | some answer =>
        rcases Option.bind_eq_some_iff.mp hread with ⟨j, _, hj⟩
        exact CoreSim.answers_of_validate hj

theorem ends_remembered {place : CoreSim.Place} {key : Str} :
    Failing.Ends Worded (fun _ => True) (CoreSim.remembered db place key) := by
  unfold CoreSim.remembered
  split
  · exact Failing.ends_bind_of ends_sends fun _ _ => trivial
  · exact worded_of_message rfl

theorem ends_execute {t : CoreSim.Tables} {w : CoreSim.Write} :
    Failing.Ends Worded (fun _ => True) (CoreSim.execute t w) := by
  unfold CoreSim.execute
  split
  · split
    · trivial
    · exact worded_of_message rfl
  · exact worded_of_message rfl

theorem ends_performed {request : CoreSim.Request} {id : Uuid} {now : Calendar.Moment} :
    Failing.Ends Worded request.call.Answers (CoreSim.performed db request id now) := by
  refine Failing.ends_bind_of ends_sends fun looked _ => ?_
  have hcheck : Failing.Ends Worded (CoreSim.Finds looked request.call)
      (CoreSim.check looked request.call) := ends_check
  rcases Failing.ends_iff.mp hcheck with ⟨hends, hfinds⟩
  refine Failing.ends_bind_of hends fun draft hdraft => ?_
  refine Failing.ends_bind_of ends_sends fun _ _ => ?_
  exact Failing.ends_bind_of ends_execute fun _ _ => (hfinds draft hdraft).answers id now

/-- A write answers with its own model, or raises what has no message or one that can be
    written. -/
theorem ends_write {request : CoreSim.Request} {id : Uuid} {now keyedAt : Calendar.Moment}
    (hkey : Theory.Storable request.key) :
    Failing.Ends Worded request.call.Answers (CoreSim.write db request id now keyedAt) := by
  refine ends_connection (Failing.ends_bind_of ends_remembered fun row _ => ?_)
  cases row with
  | some row => exact ends_replayed hkey
  | none =>
      have hperformed : Failing.Ends Worded request.call.Answers
          (CoreSim.performed db request id now) := ends_performed
      rcases Failing.ends_iff.mp hperformed with ⟨hends, hanswers⟩
      refine Failing.ends_bind_of hends fun answer hanswer => ?_
      refine Failing.ends_bind_of ends_sends fun t _ => ?_
      have hexecute := ends_execute (t := t)
        (w := .key request.key (CoreSim.keyRow request answer keyedAt))
      split
      · exact hanswers answer hanswer
      · -- Another attempt with the key committed in between.
        refine Failing.ends_bind_of ends_sends fun _ _ => ?_
        refine Failing.ends_bind_of ends_remembered fun concurrent _ => ?_
        cases concurrent with
        | none => exact worded_of_message rfl
        | some concurrent => exact ends_replayed hkey
      · rename_i raised _ hraised
        rw [hraised] at hexecute
        exact hexecute

theorem ends_readPolicy {policyNumber : Str} :
    Failing.Ends Worded (fun _ => True) (CoreSim.readPolicy db policyNumber) := by
  unfold CoreSim.readPolicy
  by_cases hstorable : Theory.Storable policyNumber
  · rw [if_pos hstorable]
    refine Failing.ends_bind_of (ends_connection (Failing.ends_bind_of ends_sends
      fun _ _ => trivial)) fun row _ => ?_
    cases row with
    | none => exact worded_of_told (CoreSim.told_policyNotFound hstorable)
    | some policy => trivial
  · rw [if_neg hstorable]
    -- A number no column takes is refused by the driver.
    have hbody : Failing.Ends Worded (fun _ : Option Policy => False)
        (throw .dataError : Except CoreSim.Raised (Option Policy)) := worded_of_message rfl
    have hconnection : Failing.Ends Worded (fun _ => False)
        (db.connection (throw .dataError : Except CoreSim.Raised (Option Policy))) :=
      ends_connection hbody
    rcases Failing.ends_iff.mp hconnection with ⟨hends, hnone⟩
    exact Failing.ends_bind_of hends fun row hrow => (hnone row hrow).elim

theorem ends_readHeld {claimId : Uuid} :
    Failing.Ends Worded (fun _ => True) (CoreSim.readHeld db claimId) := by
  refine Failing.ends_bind_of (ends_connection ends_sends) fun t _ => ?_
  unfold CoreSim.read
  cases t.claims claimId with
  | none => exact worded_of_told (CoreSim.told_claimNotFound claimId)
  | some row =>
      rw [CoreSim.claimOf_some]
      trivial

theorem ends_readPartiesHeld {claimId : Uuid} :
    Failing.Ends Worded (fun _ => True) (CoreSim.readPartiesHeld db claimId) := by
  refine ends_connection (Failing.ends_bind_of ends_sends fun t _ => ?_)
  refine Failing.ends_bind_of (ends_of_told (CoreSim.ends_requireClaim.mpr fun _ => trivial))
    fun _ _ => ?_
  exact Failing.ends_bind_of ends_sends fun _ _ => trivial

end Worded

/-! ### What is answered -/

section Answered

variable {read : Str → Str} {frames : Nat} (hframes : 3 ≤ frames) (l : Value.Layout)
  (drawn : Uuid × Calendar.Moment × Calendar.Moment) (c : Call)

theorem map_decode {α : Type} (wire : Codec α Json) (body : α → Body) (a : α) :
    (wire.decode (wire.encode a)).map body = some (body a) := by
  rw [wire.decode_encode, Option.map_some]

theorem parse_claim (claim : Claim) :
    parseClaim (documentOf (.written (.claim claim))) = some (.written (.claim claim)) := by
  rw [parseClaim, documentOf, CoreSim.Answer.modelDump]
  exact map_decode Claim.wire _ claim

theorem parse_document (document : ClaimDocument) :
    parseDocument (documentOf (.written (.document document))) =
      some (.written (.document document)) := by
  rw [parseDocument, documentOf, CoreSim.Answer.modelDump]
  exact map_decode ClaimDocument.wire _ document

theorem parse_party (party : ClaimParty) :
    parseParty (documentOf (.written (.party party))) = some (.written (.party party)) := by
  rw [parseParty, documentOf, CoreSim.Answer.modelDump]
  exact map_decode ClaimParty.wire _ party

/-- A call's success is the one its method expects, and is read back. -/
theorem parse_of_succeeds {statusCode : Nat} {body : Body}
    (h : CoreSim.Succeeds (c.asked drawn) statusCode body) :
    c.asking.expected = statusCode ∧ c.asking.parse (documentOf body) = some body := by
  cases c with
  | readReadiness =>
      cases h
      exact ⟨rfl, map_decode Readiness.wire (fun _ => .readiness) ()⟩
  | readPolicy policyNumber =>
      cases h with
      | readPolicy policy => exact ⟨rfl, map_decode Policy.wire .policy policy⟩
  | readClaim claimId =>
      cases h with
      | readClaim claim => simp only [Call.asking, parse_claim, and_self]
  | readClaimParties claimId =>
      cases h with
      | readClaimParties parties => exact ⟨rfl, map_decode ClaimParty.wire.array .parties parties⟩
  | createClaim submission key | recordClaimStatus claimId update key =>
      cases h with
      | @write _ _ _ _ answer hanswers =>
          cases answer with
          | claim claim =>
              simp only [Call.asking, CoreSim.Call.success, parse_claim, and_self]
          | document | party => exact hanswers.elim
  | attachClaimDocument claimId attachment key =>
      cases h with
      | @write _ _ _ _ answer hanswers =>
          cases answer with
          | document document =>
              simp only [Call.asking, CoreSim.Call.success, parse_document, and_self]
          | claim | party => exact hanswers.elim
  | recordClaimParty claimId registration key =>
      cases h with
      | @write _ _ _ _ answer hanswers =>
          cases answer with
          | party party =>
              simp only [Call.asking, CoreSim.Call.success, parse_party, and_self]
          | claim | document => exact hanswers.elim

theorem expected_lt : c.asking.expected < 300 := by
  cases c <;> simp only [Call.asking] <;> omega

/-- What is answered where nothing answers is a failure that says so. -/
theorem answered_crash :
    c.asking.answered read frames crash = .error (.unexpectedResponse 500) := by
  have hne : crash.statusCode ≠ c.asking.expected := by
    have hlt := expected_lt c
    show 500 ≠ _
    omega
  have htext : Json.readText read frames crash.content = none := rfl
  rw [Asking.answered, if_pos hne, refusal, document, htext]
  rfl

include hframes

/-- A success comes back as it is, if it can be written. -/
theorem answered_answered {statusCode : Nat} {body : Body}
    (h : CoreSim.Succeeds (c.asked drawn) statusCode body) :
    c.asking.answered read frames (respond l (.answered statusCode body)) =
      if (documentOf body).Writable then .ok body
      else .error (.unexpectedResponse 500) := by
  rcases parse_of_succeeds drawn c h with ⟨hexpected, hparse⟩
  simp only [respond, Json.encodable_written]
  split
  · rcases exists_plain_documentOf body with ⟨depth, hdepth, hplain⟩
    have hread := Json.readText_written read l (hdepth.trans hframes) hplain
    simp only [Asking.answered, document, hexpected, ne_eq, not_true_eq_false, if_false, hread,
      Except.bind, hparse]
  · exact answered_crash c

/-- A failure in the contract's shape comes back as it is. -/
theorem answered_failed {statusCode : Nat} (h : 300 ≤ statusCode) (error : ErrorResponse) :
    c.asking.answered read frames (respond l (.failed statusCode error)) =
      .error (.refusal statusCode error) := by
  have hne : statusCode ≠ c.asking.expected := by
    have hlt := expected_lt c
    omega
  have hread := Json.readText_written read l ((by decide : 1 ≤ 3).trans hframes) (plain_error error)
  simp only [respond, Asking.answered, if_pos hne, refusal, document, hread,
    ErrorResponse.wire.decode_encode]

/-- What the store raised is told as it is, if its message can be written. -/
theorem answered_unserved {raised : CoreSim.Raised}
    (h : Worded raised) :
    c.asking.answered read frames (respond l (CoreSim.unserved raised)) =
      .error (raiseOf raised) := by
  have hfailed : ∀ code statusCode message, 300 ≤ statusCode → raised.message = some message →
      c.asking.answered read frames (respond l (CoreSim.refused statusCode code message)) =
        .error (.refusal statusCode ⟨code, message⟩) := by
    intro code statusCode message hstatus hmessage
    rw [CoreSim.refused_of_encodable (h message hmessage)]
    exact answered_failed hframes l c hstatus _
  cases raised with
  | claimNotFound | policyNotFound | idempotencyKeyReuse =>
      exact hfailed _ _ _ (by decide) rfl
  | dataError | uniqueViolation | operationalError | validationError => exact answered_crash c

/-- What an operation comes to is told as it is. -/
theorem answered_replied {α : Type} {statusCode : Nat} {body : α → Body}
    {x : Except CoreSim.Raised α}
    (h : Failing.Ends Worded
      (fun a => CoreSim.Succeeds (c.asked drawn) statusCode (body a)) x) :
    c.asking.answered read frames (respond l (CoreSim.replied statusCode body x)) =
      told body x := by
  cases x with
  | ok a => exact answered_answered hframes l drawn c h
  | error raised => exact answered_unserved hframes l c h

/-- What the systems come to is told as the store's operation. -/
theorem answered_serve (hc : c.Carried) (db : Condition) :
    c.asking.answered read frames (respond l (CoreSim.serve (.handed (c.asked drawn)) db)) =
      c.outcome drawn db := by
  have hwrite : ∀ (request : CoreSim.Request) (hkey : Keyed request.key) (statusCode : Nat),
      c.asked drawn = .write request drawn.1 drawn.2.1 drawn.2.2 →
      request.call.success = statusCode →
      c.asking.answered read frames (respond l (CoreSim.replied statusCode .written
        (CoreSim.write db request drawn.1 drawn.2.1 drawn.2.2))) =
        told .written (CoreSim.write db request drawn.1 drawn.2.1 drawn.2.2) := by
    rintro request hkey _ hasked rfl
    refine answered_replied hframes l drawn c ?_
    rw [hasked]
    refine Failing.ends_iff.mpr ⟨?_, fun answer hanswer => ?_⟩
    · exact (Failing.ends_iff.mp (ends_write (storable_of_printable hkey.2.1))).1
    · exact .write ((Failing.ends_iff.mp (ends_write (storable_of_printable hkey.2.1))).2 answer
        hanswer)
  cases c with
  | readReadiness =>
      simp only [CoreSim.serve, CoreSim.operation, Call.asked, Call.outcome]
      split
      · have hok : Value.Encodable (text "ok") := by decide
        rw [answered_answered hframes l drawn .readReadiness .readReadiness, if_pos]
        refine (Codec.writable_record (List.nodup_singleton _) (fun _ => rfl) (by decide)).mpr ?_
        exact List.forall_mem_singleton.mpr (Json.writable_str.mpr hok)
      · rw [CoreSim.refused_of_encodable (Boundary.encodable_of_printable (by decide))]
        exact answered_failed hframes l .readReadiness (by decide) _
  | readPolicy policyNumber =>
      exact answered_replied hframes l drawn (.readPolicy policyNumber)
        (Failing.ends_iff.mpr ⟨ends_readPolicy, fun policy _ => .readPolicy policy⟩)
  | readClaim claimId =>
      exact answered_replied hframes l drawn (.readClaim claimId)
        (Failing.ends_iff.mpr ⟨ends_readHeld, fun claim _ => .readClaim claim⟩)
  | readClaimParties claimId =>
      exact answered_replied hframes l drawn (.readClaimParties claimId)
        (Failing.ends_iff.mpr ⟨ends_readPartiesHeld, fun parties _ => .readClaimParties parties⟩)
  | createClaim submission key => exact hwrite _ hc.2 201 rfl rfl
  | attachClaimDocument claimId attachment key => exact hwrite _ hc.2 201 rfl rfl
  | recordClaimStatus claimId update key =>
      exact hwrite ⟨.recordStatus claimId update.status, key⟩ hc 200 rfl rfl
  | recordClaimParty claimId registration key =>
      exact hwrite ⟨.recordParty claimId registration, key⟩ hc 201 rfl rfl

end Answered

/-- A call whose request arrives as what is asked of the store is the store's
    operation. -/
theorem call_of_reply {read : Str → Str} {frames : Nat} (hframes : 3 ≤ frames) (l : Value.Layout)
    {rejection : Request → Str} {others : Request → Reply}
    {drawn : Uuid × Calendar.Moment × Calendar.Moment} {db : Condition} {c : Call}
    (hc : c.Carried) (h : ∃ request, c.asking.request = some request ∧
      reply read frames rejection others drawn db request =
        CoreSim.serve (.handed (c.asked drawn)) db) :
    call read frames (reaching read frames l rejection others drawn db) c =
      c.outcome drawn db := by
  rcases h with ⟨request, hrequest, hreply⟩
  rw [call, hrequest]
  simp only [reaching, hreply]
  exact answered_serve hframes l drawn c hc db

/-- A call over the wire is the store's operation: it returns what the store
    returns, raises the exception of the store's refusal with its code and its
    detail, and raises that the answer is another where the store fails. -/
theorem call_eq_outcome (read : Str → Str) {frames : Nat} (hframes : 3 ≤ frames) (l : Value.Layout)
    (rejection : Request → Str) (others : Request → Reply)
    (drawn : Uuid × Calendar.Moment × Calendar.Moment) (db : Condition) {c : Call}
    (hc : c.Carried) :
    call read frames (reaching read frames l rejection others drawn db) c =
      c.outcome drawn db :=
  call_of_reply hframes l hc (reply_of_request hframes hc)

theorem call_eq_outcome_seeded :
    Call.Carried (.readPolicy (text "SIM-2026-0001")) ∧
      call id 3 (reaching id 3 Value.compact (fun _ => []) (fun _ => .crashed)
        (⟨1, Uuid.one_valid⟩, ⟨.third, .noon⟩, ⟨.third, .noon⟩) Client.answering)
        (.readPolicy (text "SIM-2026-0001")) =
      .ok (.policy (CoreSim.seedPolicies.head (by decide))) := by
  have hcarried : Call.Carried (.readPolicy (text "SIM-2026-0001")) :=
    ⟨by decide, by decide, by decide⟩
  refine ⟨hcarried, ?_⟩
  rw [call_eq_outcome id le_rfl Value.compact _ _ _ Client.answering hcarried]
  decide +kernel

end Wire

end ClaimTriage
