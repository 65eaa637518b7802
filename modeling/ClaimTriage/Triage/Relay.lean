import ClaimTriage.Contract.Wire
import ClaimTriage.Triage.Evidence

/-!
# Relaying

Our own boundaries over the wire: what the pipeline comes to, as a caller is told
it by the boundary in front of it, by one in front of that, and so on.

A boundary answers what its route raised in one shape, and the client of a
boundary raises what was answered for the boundary it stands in to answer again.
One hop makes a few things alike: what cannot be served now is one exception,
whoever could not serve it, and what no boundary has a shape for is a defect. A
second hop changes nothing, so how many of our boundaries stand in a row does not
show. In particular a refusal arrives with the status, the code and the detail
it was given with.

## Main definitions

* `BoundaryError.wire`, `RunRequest.wire`, `RunResult.wire`: The models' codecs.
* `BoundaryError.relayed`: A refusal of the systems in our vocabulary.
* `answered`: What the client makes of an answer.
* `respond`: What a boundary answers with.
* `hop`, `relayed`: What comes of an outcome over the wire, and in so many words.
* `submit`, `createRun`, `forward`: A run asked for, served, and both.

## Theorems

* `hop_eq`: One hop relays.
* `relayed_relayed`: A second changes nothing.
* `forward_eq`: A run asked for over the wire is the pipeline's, relayed.
* `iterate_forward`: However many boundaries stand in a row.
-/

namespace ClaimTriage

open Theory Text

namespace Boundary

/-- A code as its name. -/
def BoundaryCode.codec : Codec BoundaryCode Str :=
  Codec.named [invalidPayload, claimNotFound, policyNotFound, idempotencyKeyReuse,
    serviceUnavailable, notFound, unsupportedMediaType, payloadTooLarge, documentRefused,
    rateLimited] BoundaryCode.value (by intro c; cases c <;> decide)
    (by intro c d; cases c <;> cases d <;> decide)

/-- The fields of a failure. -/
def BoundaryError.fields : List Str :=
  [text "code", text "detail"]

/-- A failure as it is dumped. -/
def BoundaryError.wire : Codec BoundaryError Json :=
  (Codec.record fields (BoundaryCode.codec.str.cons (Codec.plain.str.cons Codec.nil))
    (by decide) (fun _ => rfl)).comp
    { encode := fun e => (e.code, e.detail, ())
      decode := fun (code, detail, ()) => some ⟨code, detail⟩
      decode_encode := fun _ => rfl }

/-- A refusal the systems answered, in our vocabulary, if its code is in it. -/
def BoundaryError.relayed (refusal : ErrorResponse) : Option BoundaryError :=
  (BoundaryCode.codec.decode refusal.code.value).map fun code => ⟨code, refusal.detail⟩

/-- Every code the contract names is in our vocabulary, under the same name. -/
theorem BoundaryError.exists_relayed (refusal : ErrorResponse) :
    ∃ code : BoundaryCode, code.value = refusal.code.value ∧
      relayed refusal = some ⟨code, refusal.detail⟩ := by
  have hcode : ∃ code : BoundaryCode, code.value = refusal.code.value := by
    cases refusal.code with
    | invalidPayload => exact ⟨.invalidPayload, rfl⟩
    | claimNotFound => exact ⟨.claimNotFound, rfl⟩
    | policyNotFound => exact ⟨.policyNotFound, rfl⟩
    | idempotencyKeyReuse => exact ⟨.idempotencyKeyReuse, rfl⟩
    | serviceUnavailable => exact ⟨.serviceUnavailable, rfl⟩
  rcases hcode with ⟨code, hvalue⟩
  have hdecode : BoundaryCode.codec.decode code.value = some code :=
    BoundaryCode.codec.decode_encode code
  refine ⟨code, hvalue, ?_⟩
  rw [relayed, ← hvalue, hdecode, Option.map_some]

end Boundary

/-! ### Models -/

/-- The fields of a run's result. -/
def RunResult.fields : List Str :=
  [text "run_id", text "claim_id", text "status", text "experiment", text "variant",
    text "trace_id"]

/-- A run's result as it is dumped. -/
def RunResult.wire : Codec RunResult Json :=
  (Codec.record fields
    (Uuid.codec.str.cons (Uuid.codec.str.cons (ClaimStatus.codec.str.cons (Codec.plain.str.cons
      (Codec.plain.str.cons (Codec.plain.str.cons Codec.nil))))))
    (by decide) (fun _ => rfl)).comp
    { encode := fun r => (r.runId, r.claimId, r.status, r.experiment, r.variant, r.traceId, ())
      decode := fun (run, claim, status, experiment, variant, trace, ()) =>
        some ⟨run, claim, status, experiment, variant, trace⟩
      decode_encode := fun _ => rfl }

/-- The arm that runs when nothing else is asked for. -/
def defaultExperiment : Str :=
  text "baseline"

/-- Replay, not a provider. -/
def defaultVariant : Str :=
  text "replay"

/-- A document with a field it may lack. -/
def withDefault (name : Str) (value : Json) : Json → Json
  | .obj fields =>
    if name ∈ fields.map Prod.fst then .obj fields else .obj (fields ++ [(name, value)])
  | j => j

/-- The fields of a run's request. -/
def RunRequest.fields : List Str :=
  [text "policy_number", text "incident_date", text "claim_amount_eur", text "experiment",
    text "variant", text "run_id", text "guard_verdicts"]

/-- A run's request as it is dumped, and as it is validated but for its defaults. -/
def RunRequest.record : Codec RunRequest Json :=
  (Codec.record fields
    (Codec.plain.str.cons (Codec.date.str.cons (Amount.codec.str.cons (Codec.plain.str.cons
      (Codec.plain.str.cons (Uuid.codec.str.cons (DocumentVerdicts.wire.array.cons Codec.nil)))))))
    (by decide) (fun _ => rfl)).comp
    { encode := fun r => (r.policyNumber, r.incidentDate, r.claimAmountEur, r.experiment,
        r.variant, r.runId, r.guardVerdicts, ())
      decode := fun (number, day, amount, experiment, variant, run, verdicts, ()) =>
        if h : 1 ≤ number.length ∧ number.length ≤ 64 then
          some ⟨⟨⟨number, day, amount, h⟩, experiment, variant⟩, run, verdicts⟩
        else none
      decode_encode := fun r => dif_pos r.policyNumberValid }

/-- A document that has its field is as it was. -/
theorem withDefault_of_mem {name : Str} {value : Json} {fields : List (Str × Json)}
    (h : name ∈ fields.map Prod.fst) : withDefault name value (.obj fields) = .obj fields :=
  if_pos h

/-- A run's request as it is dumped and validated. -/
def RunRequest.wire : Codec RunRequest Json where
  encode := record.encode
  decode j := record.decode (withDefault (text "variant") (.str defaultVariant)
    (withDefault (text "experiment") (.str defaultExperiment) j))
  decode_encode r := by
    have hnames : ∀ name ∈ fields, name ∈ (fields.zip [Json.str r.policyNumber,
        Codec.date.str.encode r.incidentDate, Amount.codec.str.encode r.claimAmountEur,
        Json.str r.experiment, Json.str r.variant, Uuid.codec.str.encode r.runId,
        DocumentVerdicts.wire.array.encode r.guardVerdicts]).map Prod.fst := fun _ h => h
    have hexperiment := hnames (text "experiment") (by decide)
    have hvariant := hnames (text "variant") (by decide)
    have hencode : record.encode r = .obj (fields.zip [Json.str r.policyNumber,
        Codec.date.str.encode r.incidentDate, Amount.codec.str.encode r.claimAmountEur,
        Json.str r.experiment, Json.str r.variant, Uuid.codec.str.encode r.runId,
        DocumentVerdicts.wire.array.encode r.guardVerdicts]) := rfl
    rw [hencode, withDefault_of_mem hexperiment, withDefault_of_mem hvariant, ← hencode]
    exact record.decode_encode r

namespace Relay

open Boundary (BoundaryCode BoundaryError Refused Raised)

/-! ### The client of a boundary -/

/-- Why a call of a boundary raises: the boundary cannot serve it now, or refused
    it; or what it answered is outside the wire, or the call cannot be written. -/
inductive Failure where
  | unavailable (detail : Str)
  | refused (refused : Refused)
  | unexpectedAnswer (statusCode : Nat)
  | unencodable
  deriving DecidableEq

/-- A failure as the boundary that called raises it: an answer outside the wire
    stays a defect. -/
def Failure.raised : Failure → Raised
  | unavailable detail => .unavailable detail
  | refused given => .refused given
  | unexpectedAnswer _ | unencodable => .other

section Client

variable (read : Str → Str) (frames : Nat)

/-- The answer as JSON, or the failure that says the boundary answered something
    else. -/
def document (response : Wire.Response) : Except Failure Json :=
  match Json.readText read frames response.content with
  | some document => .ok document
  | none => .error (.unexpectedAnswer response.statusCode)

/-- The refusal a boundary answered with. -/
def refusal (document : Json) (statusCode : Nat) : Except Failure BoundaryError :=
  match BoundaryError.wire.decode document with
  | some refusal => .ok refusal
  | none => .error (.unexpectedAnswer statusCode)

/-- What a call makes of an answer: what it parses, or the failure it named. -/
def answered {α : Type} (expected : Nat) (parse : Json → Option α) (response : Wire.Response) :
    Except Failure α :=
  match document read frames response with
  | .error failure => .error failure
  | .ok document =>
    if response.statusCode ≠ expected then
      match refusal document response.statusCode with
      | .error failure => .error failure
      | .ok refusal =>
        -- What cannot be served right now is the same thing an unreachable boundary is.
        if refusal.code = .serviceUnavailable then .error (.unavailable refusal.detail)
        else .error (.refused ⟨response.statusCode, refusal⟩)
    else
      match parse document with
      | some a => .ok a
      | none => .error (.unexpectedAnswer response.statusCode)

end Client

/-! ### A boundary -/

/-- A response of the boundary's own as it crosses the wire. -/
def responded (l : Value.Layout) : Boundary.Response → Wire.Response
  | .created result =>
    if Value.Encodable (Json.written l (RunResult.wire.encode result)) then
      ⟨201, Json.written l (RunResult.wire.encode result)⟩
    else Wire.crash
  | .failed statusCode error _ => ⟨statusCode, Json.written l (BoundaryError.wire.encode error)⟩
  | .crashed => Wire.crash

/-- What a boundary answers with, once its route came to something. -/
def respond {α : Type} (l : Value.Layout) (success : Nat) (wire : Codec α Json) :
    Except Raised α → Wire.Response
  | .ok a =>
    if Value.Encodable (Json.written l (wire.encode a)) then
      ⟨success, Json.written l (wire.encode a)⟩
    else Wire.crash
  | .error raised => responded l (Boundary.handled raised)

/-! ### One hop -/

/-- What a refusal is once a boundary has answered it and its caller has read the
    answer: what it was, unless it says that the call cannot be served now, or
    cannot be written, or has the status of a success. -/
def Refused.passed (success : Nat) (refused : Refused) : Raised :=
  if Boundary.Encodable refused.error.detail ∧ refused.statusCode ≠ success then
    if refused.error.code = .serviceUnavailable then .unavailable refused.error.detail
    else .refused refused
  else .other

/-- What anything raised is, likewise. -/
def passed (success : Nat) : Raised → Raised
  | .unavailable detail => if Boundary.Encodable detail then .unavailable detail else .other
  | .refused refused => Refused.passed success refused
  | .beforeRoute statusCode detail =>
    Refused.passed success ⟨statusCode, Boundary.refusedBeforeARoute statusCode, detail⟩
  | .outsideWire rejectedLocations =>
    Refused.passed success ⟨422, .invalidPayload, rejectedLocations⟩
  | .other => .other

/-- What an outcome is, likewise: a success is itself if it can be written. -/
def relayed {α : Type} (success : Nat) (wire : Codec α Json) : Except Raised α → Except Raised α
  | .ok a => if (wire.encode a).Writable then .ok a else .error .other
  | .error raised => .error (passed success raised)

section Hop

variable {α : Type} {read : Str → Str} {frames : Nat} {l : Value.Layout} {success : Nat}
  {wire : Codec α Json}

/-- An outcome over the wire: answered by a boundary, and raised again by its
    caller. -/
def hop (read : Str → Str) (frames : Nat) (l : Value.Layout) (success : Nat) (wire : Codec α Json)
    (outcome : Except Raised α) : Except Raised α :=
  (answered read frames success wire.decode (respond l success wire outcome)).mapError
    Failure.raised

theorem plain_error (e : BoundaryError) : (BoundaryError.wire.encode e).Plain 1 :=
  Codec.plain_record (by decide) (fun _ => rfl)
    (List.forall_mem_cons.mpr ⟨trivial, List.forall_mem_singleton.mpr trivial⟩)

/-- What is answered where nothing answers is a defect. -/
theorem answered_crash :
    (answered read frames success wire.decode Wire.crash).mapError Failure.raised =
      .error .other := by
  have htext : Json.readText read frames Wire.crash.content = none := rfl
  simp only [answered, document, htext]
  rfl

/-- A wire that takes no failure for a success. -/
def Apart (wire : Codec α Json) : Prop :=
  ∀ error, wire.decode (BoundaryError.wire.encode error) = none

/-- A failure's answer is read as what it was passed for. -/
theorem answered_refusal (hframes : 1 ≤ frames) (hapart : Apart wire) (given : Refused)
    (retryAfter : Option Int) :
    (answered read frames success wire.decode (responded l (Boundary.refusal given.statusCode
      given.error.code given.error.detail retryAfter))).mapError Failure.raised =
      .error (Refused.passed success given) := by
  by_cases hencodable : Boundary.Encodable given.error.detail
  · have hread := Json.readText_written read l hframes (plain_error given.error)
    rw [Boundary.refusal_of_encodable hencodable]
    by_cases hstatus : given.statusCode = success
    · have hnone : Refused.passed success given = .other := if_neg fun h => h.2 hstatus
      simp only [responded, answered, document, hread, hstatus, ne_eq, not_true_eq_false, if_false,
        hapart given.error, hnone]
      rfl
    · have hpassed : Refused.passed success given =
          if given.error.code = .serviceUnavailable then .unavailable given.error.detail
          else .refused given := if_pos ⟨hencodable, hstatus⟩
      simp only [responded, answered, document, hread, ne_eq, hstatus, not_false_eq_true, if_true,
        refusal, BoundaryError.wire.decode_encode, hpassed]
      split <;> rfl
  · have hnone : Refused.passed success given = .other := if_neg fun h => hencodable h.1
    rw [Boundary.refusal_of_not_encodable hencodable, responded, answered_crash, hnone]

/-- One hop relays. -/
theorem hop_eq {depth : Nat} (hdepth : depth ≤ frames) (hframes : 1 ≤ frames)
    (hsuccess : success < 300) (hplain : ∀ a, (wire.encode a).Plain depth) (hapart : Apart wire)
    (outcome : Except Raised α) :
    hop read frames l success wire outcome = relayed success wire outcome := by
  cases outcome with
  | ok a =>
      simp only [hop, respond, relayed, Json.encodable_written]
      split
      · have hread := Json.readText_written read l hdepth (hplain a)
        simp only [answered, document, hread, ne_eq, not_true_eq_false, if_false,
          wire.decode_encode]
        rfl
      · exact answered_crash
  | error raised =>
      cases raised with
      | unavailable detail =>
          have hpassed : Refused.passed success ⟨503, .serviceUnavailable, detail⟩ =
              passed success (.unavailable detail) := by
            have hstatus : 503 ≠ success := by omega
            simp only [Refused.passed, passed, hstatus, ne_eq, not_false_eq_true, and_true, if_true]
          simp only [hop, respond, relayed, ← hpassed]
          exact answered_refusal hframes hapart ⟨503, .serviceUnavailable, detail⟩ none
      | refused given => exact answered_refusal hframes hapart given none
      | beforeRoute statusCode detail =>
          exact answered_refusal hframes hapart
            ⟨statusCode, Boundary.refusedBeforeARoute statusCode, detail⟩ none
      | outsideWire rejectedLocations =>
          exact answered_refusal hframes hapart ⟨422, .invalidPayload, rejectedLocations⟩ none
      | other => exact answered_crash

/-- A second hop changes nothing. -/
theorem relayed_relayed (outcome : Except Raised α) :
    relayed success wire (relayed success wire outcome) = relayed success wire outcome := by
  have hrefused : ∀ given, passed success (Refused.passed success given) =
      Refused.passed success given := by
    intro given
    by_cases hkept : Boundary.Encodable given.error.detail ∧ given.statusCode ≠ success
    · rw [Refused.passed, if_pos hkept]
      split
      · exact if_pos hkept.1
      · rename_i hcode
        rw [passed, Refused.passed, if_pos hkept, if_neg hcode]
    · rw [Refused.passed, if_neg hkept, passed]
  cases outcome with
  | ok a =>
      by_cases hwritable : (wire.encode a).Writable
      · simp only [relayed, if_pos hwritable]
      · simp only [relayed, if_neg hwritable, passed]
  | error raised =>
      refine congrArg Except.error ?_
      cases raised with
      | unavailable detail =>
          by_cases hencodable : Boundary.Encodable detail
          · simp only [passed, if_pos hencodable]
          · simp only [passed, if_neg hencodable]
      | refused given => exact hrefused given
      | beforeRoute statusCode detail => exact hrefused _
      | outsideWire rejectedLocations => exact hrefused _
      | other => rfl

end Hop

/-! ### A run asked for -/

section Forward

variable (read : Str → Str) (frames : Nat) (l : Value.Layout) (rejection : Str → Str)

/-- Ask the triager to carry one claim over a transport, which may fail. -/
def submit (transport : Str → Except Str Wire.Response) (request : RunRequest) :
    Except Failure RunResult :=
  if Value.Encodable (Json.written Value.compact (RunRequest.wire.encode request)) then
    match transport (Json.written Value.compact (RunRequest.wire.encode request)) with
    | .error unreachable => .error (.unavailable (text "POST /runs unreachable: " ++ unreachable))
    | .ok response => answered read frames 201 RunResult.wire.decode response
  else .error .unencodable

/-- Run one claim through the pipeline behind a boundary, once the body is a
    request of its wire. -/
def createRun (pipeline : RunRequest → Except Raised RunResult) (body : Str) :
    Except Raised RunResult :=
  match (Json.readText read frames body).bind RunRequest.wire.decode with
  | some run => pipeline run
  | none => .error (.outsideWire (rejection body))

/-- A run asked for of a boundary, and served there. -/
def forward (pipeline : RunRequest → Except Raised RunResult) (request : RunRequest) :
    Except Raised RunResult :=
  (submit read frames (fun body => .ok (respond l 201 RunResult.wire
    (createRun read frames rejection pipeline body))) request).mapError Failure.raised

/-- The texts of a request can be written. -/
def Carried (request : RunRequest) : Prop :=
  (RunRequest.wire.encode request).Writable

instance (request : RunRequest) : Decidable (Carried request) :=
  inferInstanceAs (Decidable (Json.Writable _))

theorem plain_result (result : RunResult) : (RunResult.wire.encode result).Plain 1 :=
  Codec.plain_record (by decide) (fun _ => rfl)
    (List.forall_mem_cons.mpr ⟨trivial, List.forall_mem_cons.mpr ⟨trivial,
      List.forall_mem_cons.mpr ⟨trivial, List.forall_mem_cons.mpr ⟨trivial,
        List.forall_mem_cons.mpr ⟨trivial, List.forall_mem_singleton.mpr trivial⟩⟩⟩⟩⟩)

/-- No failure is a run's result: it has a code. -/
theorem apart_result : Apart RunResult.wire := by
  intro error
  have hrecord : Json.record BoundaryError.fields (BoundaryError.wire.encode error) =
      some [.str error.code.value, .str error.detail] :=
    Json.record_obj (by decide) rfl
  have hcode : text "code" ∈ BoundaryError.fields := by decide
  have hnone : Json.record RunResult.fields (BoundaryError.wire.encode error) = none :=
    Json.record_eq_none hrecord hcode (by decide)
  simp only [RunResult.wire, Codec.comp, Codec.record, hnone, Option.bind_none]

theorem plain_verdicts (d : DocumentVerdicts) : (DocumentVerdicts.wire.encode d).Plain 3 := by
  have hverdict : ∀ v : Verdict, (Verdict.wire.encode v).Plain 1 := fun v =>
    Codec.plain_record (by decide) (fun _ => rfl)
      (List.forall_mem_cons.mpr ⟨trivial, List.forall_mem_cons.mpr
        ⟨trivial, List.forall_mem_singleton.mpr trivial⟩⟩)
  have hverdicts : (Verdict.wire.array.encode d.verdicts).Plain 2 :=
    Codec.plain_array fun v _ => hverdict v
  refine Codec.plain_record (by decide) (fun _ => rfl) ?_
  exact List.forall_mem_cons.mpr ⟨trivial, List.forall_mem_cons.mpr
    ⟨trivial, List.forall_mem_singleton.mpr hverdicts⟩⟩

theorem plain_request (request : RunRequest) : (RunRequest.wire.encode request).Plain 5 := by
  have hverdicts : (DocumentVerdicts.wire.array.encode request.guardVerdicts).Plain 4 :=
    Codec.plain_array fun d _ => plain_verdicts d
  refine Codec.plain_record (by decide) (fun _ => rfl) ?_
  exact List.forall_mem_cons.mpr ⟨trivial, List.forall_mem_cons.mpr ⟨trivial,
    List.forall_mem_cons.mpr ⟨trivial, List.forall_mem_cons.mpr ⟨trivial,
      List.forall_mem_cons.mpr ⟨trivial, List.forall_mem_cons.mpr ⟨trivial,
        List.forall_mem_singleton.mpr hverdicts⟩⟩⟩⟩⟩⟩

variable {read} {frames} {l} {rejection}

/-- A run asked for over the wire is the pipeline's, relayed. -/
theorem forward_eq (hframes : 5 ≤ frames) (pipeline : RunRequest → Except Raised RunResult)
    {request : RunRequest} (hrequest : Carried request) :
    forward read frames l rejection pipeline request =
      relayed 201 RunResult.wire (pipeline request) := by
  have hread := Json.readText_written read Value.compact hframes (plain_request request)
  have hserved : createRun read frames rejection pipeline
      (Json.written Value.compact (RunRequest.wire.encode request)) = pipeline request := by
    simp only [createRun, hread, Option.bind_some, RunRequest.wire.decode_encode]
  simp only [forward, submit, if_pos (Json.encodable_written.mpr hrequest), hserved]
  exact hop_eq ((by decide : 1 ≤ 5).trans hframes) ((by decide : 1 ≤ 5).trans hframes) (by decide)
    plain_result apart_result (pipeline request)

/-- A run that cannot be written is asked for nowhere, which is a defect of its client. -/
theorem forward_of_not_carried (pipeline : RunRequest → Except Raised RunResult)
    {request : RunRequest} (hrequest : ¬ Carried request) :
    forward read frames l rejection pipeline request = .error .other := by
  simp only [forward, submit, if_neg fun h => hrequest (Json.encodable_written.mp h)]
  rfl

/-- A run that can be written is relayed over any number of boundaries as over one. -/
theorem forward_iterate (hframes : 5 ≤ frames) (pipeline : RunRequest → Except Raised RunResult)
    {request : RunRequest} (hrequest : Carried request) (n : Nat) :
    (forward read frames l rejection)^[n + 1] pipeline request =
      relayed 201 RunResult.wire (pipeline request) := by
  induction n with
  | zero => exact forward_eq hframes pipeline hrequest
  | succ n ih =>
      rw [Function.iterate_succ_apply', forward_eq hframes _ hrequest, ih, relayed_relayed]

/-- However many boundaries stand in a row, the caller of the first is told what the
    caller of one would be: the result itself, a refusal with its own status, code
    and detail, that the run cannot be served now, or a defect, which a run that
    cannot be written always is. -/
theorem iterate_forward (read : Str → Str) {frames : Nat} (hframes : 5 ≤ frames)
    (l : Value.Layout) (rejection : Str → Str) (pipeline : RunRequest → Except Raised RunResult)
    (request : RunRequest) (n : Nat) :
    (forward read frames l rejection)^[n + 1] pipeline request =
      if Carried request then relayed 201 RunResult.wire (pipeline request)
      else .error .other := by
  split
  · rename_i hrequest
    exact forward_iterate hframes pipeline hrequest n
  · rename_i hrequest
    rw [Function.iterate_succ_apply']
    exact forward_of_not_carried _ hrequest

end Forward

/-- A refusal of the systems, as the pipeline raises it. -/
def unknownPolicy : Raised :=
  .refused ⟨404, .policyNotFound, text "unknown policy SIM-2026-0001"⟩

/-- Over two boundaries it is what it was. -/
theorem iterate_forward_unknownPolicy :
    Carried Pipeline.claimed ∧
      (forward id 5 Value.compact id)^[2] (fun _ => .error unknownPolicy) Pipeline.claimed =
        .error unknownPolicy := by
  have hcarried : Carried Pipeline.claimed := by decide +kernel
  have hrelayed : relayed 201 RunResult.wire (.error unknownPolicy) = .error unknownPolicy := by
    decide +kernel
  rw [iterate_forward id le_rfl Value.compact id _ _ 1, if_pos hcarried]
  exact ⟨hcarried, hrelayed⟩

end Relay

end ClaimTriage
