import ClaimTriage.Api.Surface
import ClaimTriage.Triage.Relay
import ClaimTriage.Triage.Transaction

/-!
# The Stack

A submission on its way through everything that is deployed: screened at the
entry point, asked for of the triager over the wire, run through the pipeline,
which calls the systems over another, and answered all the way back.

The pipeline on its own is `run`, over whatever its calls of the systems come to.
With the calls made over the wire it is what it is with the systems' store in
their place, so a caller at the entry point is told what that comes to, relayed;
and a submission the entry point refuses is told so, and nobody behind it is
asked. What the systems refuse reaches the caller in their own words, however far
the run had got.

## Main definitions

* `Wiring`, `run`: What one run of the pipeline is made over, and the run.
* `Systems`, `overWire`, `inPlace`: The systems called over the wire, and in place.
* `Records`: The run a request is recorded as.
* `intake`: What the caller of the entry point is told.
* `withSubmit`, `deployed`: An entry point over another boundary.
* `Refuses`, `Leaves`: The systems refuse a run, and what it leaves of the store.

## Theorems

* `rows_of_run`: What a run adds to the rows, and what its result says of them.
* `run_overWire`: A run over the wire is a run in place.
* `postClaims_of_admits`: What is let in is asked for once.
* `intake_eq`: What a caller is told.
* `intake_of_refused`: What the systems refuse reaches the caller.
-/

namespace ClaimTriage

open Theory Text Calendar Recency

namespace Stack

open Boundary (BoundaryCode BoundaryError Refused Raised)
open Transaction (withRun)

/-! ### One run of the pipeline -/

/-- What one run of the pipeline is made over: the systems as the contract's client
    calls them, and what is said where they are not reached; how the graph ends;
    where the store's database fails, and what is said of it; the trace the run is
    in, and the clock. -/
structure Wiring where
  systems : Wire.Call → Except Wire.Raise CoreSim.Body
  unreachable : Str
  final : Str
  condition : Transaction.Condition
  unavailable : Str
  trace : Option (Fin (2 ^ 128))
  startedAt : Moment
  completedAt : Moment

/-- What the systems and the client raise, as our own boundaries answer it: a
    refusal is relayed with its code, what is unreachable is unavailable, and
    anything else stays a defect. -/
def translated (unreachable : Str) : Wire.Raise → Raised
  | .unreachable => .unavailable (text "the surrounding systems are unreachable: " ++ unreachable)
  | .refusal statusCode error =>
    match BoundaryError.relayed error with
    | some relayed => .refused ⟨statusCode, relayed⟩
    | none => .other
  | .unexpectedResponse _ | .unencodable => .other

/-- A call of the systems that answers with a claim. -/
def asksClaim (p : Wiring) (c : Wire.Call) : Except Raised Claim :=
  match p.systems c with
  | .ok (.written (.claim claim)) => .ok claim
  | .ok _ => .error .other
  | .error raise => .error (translated p.unreachable raise)

/-- Hand the claim to the surrounding systems. -/
def takenIn (p : Wiring) (request : RunRequest) : Except Raised Claim :=
  asksClaim p (.createClaim (submission request) (Pipeline.claimKey request.runId))

/-- Read where the graph left the claim, as the contract's own enumeration. -/
def decided (p : Wiring) : Except Raised ClaimStatus :=
  match ClaimStatus.codec.decode p.final with
  | some status => .ok status
  | none => .error .other

/-- Write the state change and its audit entry in one transaction, or neither. -/
def recorded (p : Wiring) (store : Transaction.Store) (run : TriageRun) :
    Except Raised Unit × Transaction.Store :=
  match Transaction.transaction p.condition store (Transaction.recorded run) with
  | (.ok (), after) => (.ok (), after)
  | (.error e, after) =>
    (.error (if e.raised = .storeUnavailable then .unavailable p.unavailable else .other), after)

/-- Tell the systems where the claim got to. -/
def emitted (p : Wiring) (request : RunRequest) (claimId : Uuid) (status : ClaimStatus) :
    Except Raised Claim :=
  asksClaim p (.recordClaimStatus claimId ⟨status⟩ (Pipeline.statusKey request.runId))

/-- Carry one claim to the end of the graph: what the caller is told, and the
    store afterwards. -/
def run (p : Wiring) (store : Transaction.Store) (request : RunRequest) :
    Except Raised RunResult × Transaction.Store :=
  match takenIn p request with
  | .error raised => (.error raised, store)
  | .ok claim =>
    match decided p with
    | .error raised => (.error raised, store)
    | .ok status =>
      let run := Pipeline.runOf request claim.claimId status p.trace p.startedAt p.completedAt
      match recorded p store run with
      | (.error raised, after) => (.error raised, after)
      | (.ok (), after) =>
        match emitted p request claim.claimId status with
        | .error raised => (.error raised, after)
        | .ok claim => (.ok (Pipeline.resultOf run claim.status), after)

/-- The run a request is recorded as. -/
structure Records (p : Wiring) (request : RunRequest) (run : TriageRun) : Prop where
  recorded : ∃ claim status, takenIn p request = .ok claim ∧ decided p = .ok status ∧
    run = Pipeline.runOf request claim.claimId status p.trace p.startedAt p.completedAt

/-- What a run adds to the rows: nothing, or the run it is recorded as; and the latter
    if it has a result, which is that run's. -/
theorem rows_of_run (p : Wiring) (store : Transaction.Store) (request : RunRequest) :
    ((run p store request).2.committed.rows = store.committed.rows ∧
      ∀ result, (run p store request).1 ≠ .ok result) ∨
    ∃ recordedRun, Records p request recordedRun ∧
      (∀ r ∈ store.committed.rows.triageRuns, r.runId ≠ recordedRun.runId) ∧
      (run p store request).2.committed.rows = withRun store.committed.rows recordedRun ∧
      ∀ result, (run p store request).1 = .ok result →
        ∃ status, result = Pipeline.resultOf recordedRun status := by
  unfold run
  cases htaken : takenIn p request with
  | error raised => exact Or.inl ⟨rfl, by rintro _ ⟨⟩⟩
  | ok claim =>
      cases hdecided : decided p with
      | error raised => exact Or.inl ⟨rfl, by rintro _ ⟨⟩⟩
      | ok status =>
          have hrows := Transaction.rows_of_transaction p.condition store
            (Pipeline.runOf request claim.claimId status p.trace p.startedAt p.completedAt)
          have hrecords : Records p request
              (Pipeline.runOf request claim.claimId status p.trace p.startedAt p.completedAt) :=
            ⟨claim, status, htaken, hdecided, rfl⟩
          simp only [recorded]
          generalize Transaction.transaction p.condition store (Transaction.recorded
            (Pipeline.runOf request claim.claimId status p.trace p.startedAt p.completedAt)) = out
            at hrows ⊢
          rcases out with ⟨raised | ⟨⟩, after⟩
          · rcases hrows with ⟨hsame, _⟩ | ⟨hfresh, hadded⟩
            · exact Or.inl ⟨hsame, by rintro _ ⟨⟩⟩
            · exact Or.inr ⟨_, hrecords, hfresh, hadded, by rintro _ ⟨⟩⟩
          · rcases hrows with ⟨_, hne⟩ | ⟨hfresh, hadded⟩
            · exact absurd rfl hne
            · refine Or.inr ⟨_, hrecords, hfresh, ?_⟩
              simp only
              cases emitted p request claim.claimId status with
              | error raised => exact ⟨hadded, by rintro _ ⟨⟩⟩
              | ok emittedClaim =>
                  refine ⟨hadded, ?_⟩
                  rintro _ ⟨⟩
                  exact ⟨_, rfl⟩

/-! ### The systems -/

/-- The surrounding systems as they are deployed: what their database is like when a
    call reaches it, and what they draw for it; the layout they write in, what they
    say of a request outside the contract, and what else they answer. -/
structure Systems where
  db : Wire.Call → CoreSim.Condition
  drawn : Wire.Call → Uuid × Moment × Moment
  layout : Value.Layout
  rejection : Wire.Request → Str
  others : Wire.Request → CoreSim.Reply

/-- The systems called over the wire. -/
def Systems.overWire (systems : Systems) (read : Str → Str) (frames : Nat) (c : Wire.Call) :
    Except Wire.Raise CoreSim.Body :=
  Wire.call read frames (Wire.reaching read frames systems.layout systems.rejection systems.others
    (systems.drawn c) (systems.db c)) c

/-- The store in their place. -/
def Systems.inPlace (systems : Systems) (c : Wire.Call) : Except Wire.Raise CoreSim.Body :=
  c.outcome (systems.drawn c) (systems.db c)

/-- A run's keys are ones a header carries. -/
theorem keyed_append (id : Uuid) {under : Str}
    (hunder : under = text "/claim" ∨ under = text "/status") : Wire.Keyed (id.text ++ under) := by
  have hlength := Wire.length_text id
  have hplain : (1 ≤ under.length ∧ under.length ≤ 7) ∧ Printable under ∧
      under.getLast? ≠ some 0x20 ∧ under ≠ [] := by
    rcases hunder with rfl | rfl <;> decide
  rcases hplain with ⟨hlen, hprintable, hlast, hne⟩
  refine ⟨?_, (printable_append _ _).mpr ⟨id.text_printable, hprintable⟩, ?_, ?_⟩
  · rw [List.length_append]
    omega
  · intro hhead
    have hmem : (0x20 : CodePoint) ∈ id.text := by
      cases htext : id.text with
      | nil =>
          rw [htext] at hlength
          cases hlength
      | cons c rest =>
          rw [htext, List.cons_append, List.head?_cons, Option.some.injEq] at hhead
          rw [hhead]
          exact List.mem_cons_self
    exact absurd (Wire.unreserved_text id _ hmem) (by decide)
  · rw [List.getLast?_append_of_ne_nil _ hne]
    exact hlast

/-- What can be written of a request can be written of its claim. -/
theorem encodable_of_carried {request : RunRequest} (h : Relay.Carried request) :
    Value.Encodable request.policyNumber := by
  have hvalues := (Codec.writable_record (by decide) (fun _ => rfl) (by decide)).mp h
  exact Json.writable_str.mp (hvalues _ List.mem_cons_self)

/-- A run over the wire is a run in place. -/
theorem run_overWire (read : Str → Str) {frames : Nat} (hframes : 3 ≤ frames) (systems : Systems)
    (p : Wiring) (store : Transaction.Store) {request : RunRequest}
    (hrequest : Relay.Carried request) :
    run { p with systems := systems.overWire read frames } store request =
      run { p with systems := systems.inPlace } store request := by
  have hcall : ∀ {c : Wire.Call}, c.Carried → systems.overWire read frames c = systems.inPlace c :=
    fun hc => Wire.call_of_reply hframes _ hc (Wire.reply_of_request hframes hc)
  have htaken : systems.overWire read frames
      (.createClaim (submission request) (Pipeline.claimKey request.runId)) =
      systems.inPlace (.createClaim (submission request) (Pipeline.claimKey request.runId)) :=
    hcall ⟨encodable_of_carried hrequest, keyed_append request.runId (Or.inl rfl)⟩
  have hemitted : ∀ claimId status, systems.overWire read frames
      (.recordClaimStatus claimId ⟨status⟩ (Pipeline.statusKey request.runId)) =
      systems.inPlace
        (.recordClaimStatus claimId ⟨status⟩ (Pipeline.statusKey request.runId)) :=
    fun _ _ => hcall (keyed_append request.runId (Or.inr rfl))
  simp only [run, takenIn, emitted, asksClaim, decided, recorded, htaken, hemitted]

/-! ### The entry point -/

section Intake

variable (read : Str → Str) (frames : Nat) (l : Value.Layout) (rejection : Str → Str)

/-- An entry point over another boundary. -/
def withSubmit (app : Surface.App) (submit : RunRequest → Except Raised RunResult) : Surface.App :=
  { app with submit := submit }

/-- An entry point over the pipeline, with so many boundaries between them. -/
def deployed (app : Surface.App) (pipeline : RunRequest → Except Raised RunResult) (n : Nat) :
    Surface.App :=
  withSubmit app ((Relay.forward read frames l rejection)^[n + 1] pipeline)

/-- The run a submission asks for, once it is let in. -/
def asked (request : Surface.Request) (takenIn : IntakeRequest)
    (verdicts : List DocumentVerdicts) : RunRequest :=
  { takenIn with runId := request.runId, guardVerdicts := verdicts }

/-- What the caller of the entry point is told. -/
def intake (response : Boundary.Response) : Except Raised RunResult :=
  (Relay.answered read frames 201 RunResult.wire.decode (Relay.responded l response)).mapError
    Relay.Failure.raised

variable {read} {frames} {l} {rejection} {app : Surface.App} {request : Surface.Request}
  {buckets : Table Str Bucket}

/-- What is let in is asked for once, and answered with what comes of it. -/
theorem postClaims_of_admits {documents : List Surface.UploadFile} {takenIn : IntakeRequest}
    {verdicts : List DocumentVerdicts} (hread : ¬ Surface.Unreadable request)
    (h : Surface.Admits app request buckets documents takenIn verdicts) :
    (Surface.postClaims app request buckets).calls = [asked request takenIn verdicts] ∧
      intake read frames l (Surface.postClaims app request buckets).response =
        Relay.hop read frames l 201 RunResult.wire
          (app.submit (asked request takenIn verdicts)) := by
  rcases h.claim with ⟨claim, hbody, hvalid⟩
  have hnone : Ingress.firstRefusal verdicts = none := Ingress.firstRefusal_eq_none_iff.mpr h.clean
  have hadmitted : Surface.admitted app claim documents request.runId =
      .ok (asked request takenIn verdicts) :=
    Surface.admitted_of_clean hvalid h.screened hnone
  have hpast : (Surface.screenSubmissions app request buckets).1 = .ok none := by
    rcases Surface.screenSubmissions_cases app request buckets with
      ⟨htoken, _⟩ | ⟨_, hunread, _⟩ | ⟨_, _, hpast, _⟩ | ⟨_, _, _, hok⟩
    · exact absurd h.token htoken
    · exact absurd hunread hread
    · exact absurd h.within hpast
    · exact hok
  rw [Surface.postClaims_of_screened hpast]
  simp only [Surface.route, hbody, Surface.submitClaim, hadmitted, true_and]
  cases app.submit (asked request takenIn verdicts) <;> rfl

/-- What no handler answers is told as a defect. -/
theorem intake_crashed : intake read frames l .crashed = .error .other :=
  @Relay.answered_crash _ _ _ 201 _

/-- A refusal of the entry point's own is told as it was given. -/
theorem intake_failed (hframes : 1 ≤ frames) {statusCode : Nat} {code : BoundaryCode} {detail : Str}
    {retryAfter : Option Int} (hstatus : statusCode ≠ 201) (hcode : code ≠ .serviceUnavailable) :
    intake read frames l (.failed statusCode ⟨code, detail⟩ retryAfter) =
      .error (.refused ⟨statusCode, code, detail⟩) := by
  have hread := Json.readText_written read l hframes (Relay.plain_error ⟨code, detail⟩)
  simp only [intake, Relay.responded, Relay.answered, Relay.document, hread, ne_eq, hstatus,
    not_false_eq_true, if_true, Relay.refusal, BoundaryError.wire.decode_encode, hcode, if_false]
  rfl

/-- What a check that fails first means on the wire is neither a success nor that the
    entry point cannot serve. -/
theorem refused_of_firstFailed {statusCode : Nat} {code : BoundaryCode}
    (h : Surface.FirstFailed app request buckets statusCode code)
    (hunparsed : ∀ statusCode detail, request.body = .unparsed statusCode detail →
      statusCode ≠ 201) : statusCode ≠ 201 ∧ code ≠ .serviceUnavailable := by
  have hrefusals : ∀ check : Check, (Surface.refusals check).1 ≠ 201 ∧
      (Surface.refusals check).2 ≠ .serviceUnavailable := by
    intro check
    cases check <;> decide
  cases h with
  | rateLimit | size => exact hrefusals _
  | unparsed _ _ hbody =>
      refine ⟨hunparsed _ _ hbody, ?_⟩
      unfold Boundary.refusedBeforeARoute
      split
      · decide
      · split <;> decide
  | unbound | claim => exact ⟨by decide, by decide⟩
  | document => exact hrefusals _

variable (read) (frames) (l) (rejection) in
/-- The entry point as it is deployed, with so many boundaries on the way to the
    pipeline and the systems called over the wire. -/
def entryPoint (app : Surface.App) (systems : Systems) (p : Wiring) (store : Transaction.Store)
    (n : Nat) : Surface.App :=
  deployed read frames l rejection app
    (fun asked => (run { p with systems := systems.overWire read frames } store asked).1) n

/-- What a caller is told. A submission that is let in is asked for once, as the run it
    is, and its caller is told what the run comes to with the systems' store in place,
    relayed, or that a run that cannot be written is a defect; one that is refused is
    asked for nowhere, and its caller is told what the first check it fails means; and
    one that none of its checks answers is asked for nowhere and told of as a defect. -/
theorem intake_eq (read : Str → Str) {frames : Nat} (hframes : 5 ≤ frames) (l : Value.Layout)
    (rejection : Str → Str) (app : Surface.App) (request : Surface.Request)
    (buckets : Table Str Bucket) (systems : Systems) (p : Wiring) (store : Transaction.Store)
    (n : Nat)
    (hunparsed : ∀ statusCode detail, request.body = .unparsed statusCode detail →
      statusCode ≠ 201) :
    let entry := entryPoint read frames l rejection app systems p store n
    let served := Surface.postClaims entry request buckets
    (∃ documents takenIn verdicts, Surface.Admits entry request buckets documents takenIn verdicts ∧
      served.calls = [asked request takenIn verdicts] ∧
      intake read frames l served.response =
        if Relay.Carried (asked request takenIn verdicts) then
          Relay.relayed 201 RunResult.wire
            (run { p with systems := systems.inPlace } store (asked request takenIn verdicts)).1
        else .error .other) ∨
    (∃ statusCode code detail, Surface.FirstFailed entry request buckets statusCode code ∧
      served.calls = [] ∧
      intake read frames l served.response = .error (.refused ⟨statusCode, code, detail⟩)) ∨
    Surface.Unanswered entry request buckets ∧ served.calls = [] ∧
      intake read frames l served.response = .error .other := by
  intro entry served
  have hone : 1 ≤ frames := (by decide : 1 ≤ 5).trans hframes
  have hthree : 3 ≤ frames := (by decide : 3 ≤ 5).trans hframes
  by_cases hanswered : Surface.Unanswered entry request buckets
  · rcases Surface.crashed_of_unanswered hanswered with ⟨hcalls, hresponse⟩
    refine Or.inr (Or.inr ⟨hanswered, hcalls, ?_⟩)
    rw [hresponse]
    exact intake_crashed
  rcases Surface.holds_of_answered hanswered with ⟨_, hadmits, _, hrefused⟩
  by_cases hcalls : served.calls = []
  · rcases hrefused hcalls with ⟨statusCode, code, detail, retryAfter, hfirst, hresponse⟩
    rcases refused_of_firstFailed hfirst hunparsed with ⟨hstatus, hcode⟩
    refine Or.inr (Or.inl ⟨statusCode, code, detail, hfirst, hcalls, ?_⟩)
    rw [hresponse]
    exact intake_failed hone hstatus hcode
  · rcases hadmits.mp hcalls with ⟨documents, takenIn, verdicts, hadmitted⟩
    have hread : ¬ Surface.Unreadable request := fun hunread =>
      hanswered ⟨hadmitted.token, Or.inl hunread⟩
    rcases postClaims_of_admits hread hadmitted with ⟨hasked, hintake⟩
    refine Or.inl ⟨documents, takenIn, verdicts, hadmitted, hasked, ?_⟩
    rw [hintake, Relay.hop_eq hone hone (by decide) Relay.plain_result Relay.apart_result]
    split
    · rename_i hcarried
      -- One more hop than the boundaries make changes nothing.
      have hsubmit : entry.submit (asked request takenIn verdicts) = _ :=
        Relay.forward_iterate hframes _ hcarried n
      rw [hsubmit, Relay.relayed_relayed, run_overWire read hthree systems p store hcarried]
    · rename_i hcarried
      have hsubmit : entry.submit (asked request takenIn verdicts) = _ :=
        (congrFun (Function.iterate_succ_apply' _ n _) _).trans
          (Relay.forward_of_not_carried _ hcarried)
      rw [hsubmit]
      rfl

/-- The systems refuse a run, at its claim or at its status, and the triager's store
    is left so. -/
inductive Refuses (systems : Systems) (p : Wiring) (store : Transaction.Store)
    (request : RunRequest) : Transaction.Store → Nat → ErrorResponse → Prop
  | claim {statusCode : Nat} {error : ErrorResponse}
      (refused : systems.inPlace (.createClaim (submission request)
        (Pipeline.claimKey request.runId)) = .error (.refusal statusCode error)) :
      Refuses systems p store request store statusCode error
  | status {claim : Claim} {status : ClaimStatus} {after : Transaction.Store} {statusCode : Nat}
      {error : ErrorResponse}
      (taken : systems.inPlace (.createClaim (submission request)
        (Pipeline.claimKey request.runId)) = .ok (.written (.claim claim)))
      (decides : ClaimStatus.codec.decode p.final = some status)
      (records : Transaction.transaction p.condition store (Transaction.recorded
        (Pipeline.runOf request claim.claimId status p.trace p.startedAt p.completedAt)) =
          (.ok (), after))
      (refused : systems.inPlace (.recordClaimStatus claim.claimId ⟨status⟩
        (Pipeline.statusKey request.runId)) = .error (.refusal statusCode error)) :
      Refuses systems p store request after statusCode error

/-- What a run that comes to nothing for the systems leaves of the store: what was there,
    if they did not take its claim in, and otherwise the rows with the run it is
    recorded as, which was not among them. -/
def Leaves (p : Wiring) (request : RunRequest) (store after : Transaction.Store) : Prop :=
  (∃ raised, takenIn p request = .error raised) ∧ after = store ∨
    ∃ recordedRun, Records p request recordedRun ∧
      (∀ r ∈ store.committed.rows.triageRuns, r.runId ≠ recordedRun.runId) ∧
      after.committed.rows = withRun store.committed.rows recordedRun

/-- A run the systems refuse leaves no more of the store than that. -/
theorem leaves_of_refuses {systems : Systems} {p : Wiring} {store after : Transaction.Store}
    {request : RunRequest} {statusCode : Nat} {error : ErrorResponse}
    (h : Refuses systems p store request after statusCode error) :
    Leaves { p with systems := systems.inPlace } request store after := by
  cases h with
  | claim hrefused => exact Or.inl ⟨⟨_, by simp only [takenIn, asksClaim, hrefused]; rfl⟩, rfl⟩
  | @status claim status _ _ _ htaken hdecides hrecords hrefused =>
      have hrecorded : Records { p with systems := systems.inPlace } request
          (Pipeline.runOf request claim.claimId status p.trace p.startedAt p.completedAt) :=
        ⟨claim, status, by simp only [takenIn, asksClaim, htaken],
          by simp only [decided, hdecides], rfl⟩
      have hrows := Transaction.rows_of_transaction p.condition store
        (Pipeline.runOf request claim.claimId status p.trace p.startedAt p.completedAt)
      rw [hrecords] at hrows
      rcases hrows with ⟨_, hne⟩ | ⟨hfresh, hadded⟩
      · exact absurd rfl hne
      · exact Or.inr ⟨_, hrecorded, hfresh, hadded⟩

/-- A write is refused with a failure's status and a text that can be written, and not
    for that the systems cannot serve. -/
theorem refusal_of_told {body : CoreSim.Answer → CoreSim.Body}
    {x : Except CoreSim.Raised CoreSim.Answer} {statusCode : Nat} {error : ErrorResponse}
    {P : CoreSim.Answer → Prop} (hends : Failing.Ends Wire.Worded P x)
    (h : Wire.told body x = .error (.refusal statusCode error)) :
    statusCode ≠ 201 ∧ error.code ≠ .serviceUnavailable ∧ Boundary.Encodable error.detail := by
  cases x with
  | ok answer =>
      simp only [Wire.told] at h
      split at h <;> cases h
  | error raised =>
      have hraised : Wire.raiseOf raised = .refusal statusCode error := Except.error.inj h
      cases raised with
      | claimNotFound | policyNotFound | idempotencyKeyReuse =>
          cases hraised
          exact ⟨by omega, ErrorCode.noConfusion, hends _ rfl⟩
      | dataError | uniqueViolation | operationalError | validationError => cases hraised

/-- What the pipeline makes of a refusal of the systems. -/
theorem exists_translated (unreachable : Str) (statusCode : Nat) {error : ErrorResponse}
    (hcode : error.code ≠ .serviceUnavailable) :
    ∃ code : BoundaryCode, code.value = error.code.value ∧ code ≠ .serviceUnavailable ∧
      translated unreachable (.refusal statusCode error) =
        .refused ⟨statusCode, code, error.detail⟩ := by
  rcases BoundaryError.exists_relayed error with ⟨code, hvalue, hrelayed⟩
  refine ⟨code, hvalue, ?_, ?_⟩
  · rintro rfl
    exact hcode (ErrorCode.codec.encode_inj hvalue.symm)
  · simp only [translated, hrelayed]

/-- A run the systems refuse in place is refused with their own status, code and
    detail, and the triager's store is left as the run left it. -/
theorem run_of_refuses {systems : Systems} {p : Wiring} {store after : Transaction.Store}
    {request : RunRequest} {statusCode : Nat} {error : ErrorResponse}
    (h : Refuses systems p store request after statusCode error) :
    ∃ code : BoundaryCode, code.value = error.code.value ∧ code ≠ .serviceUnavailable ∧
      statusCode ≠ 201 ∧ Boundary.Encodable error.detail ∧
      run { p with systems := systems.inPlace } store request =
        (.error (.refused ⟨statusCode, code, error.detail⟩), after) := by
  cases h with
  | claim hrefused =>
      have hkey := keyed_append request.runId (Or.inl rfl)
      have hends := fun db id now keyedAt => @Wire.ends_write db
        ⟨.create (submission request), Pipeline.claimKey request.runId⟩ id now keyedAt
        (storable_of_printable hkey.2.1)
      have htold := hrefused
      simp only [Systems.inPlace, Wire.Call.outcome] at htold
      rcases refusal_of_told (hends _ _ _ _) htold with ⟨hstatus, hserves, hencodable⟩
      rcases exists_translated p.unreachable statusCode hserves with
        ⟨code, hvalue, hcode, htranslated⟩
      refine ⟨code, hvalue, hcode, hstatus, hencodable, ?_⟩
      simp only [run, takenIn, asksClaim, hrefused, htranslated]
  | @status claim status _ _ _ htaken hdecides hrecords hrefused =>
      have hkey := keyed_append request.runId (Or.inr rfl)
      have hends := fun db id now keyedAt => @Wire.ends_write db
        ⟨.recordStatus claim.claimId status, Pipeline.statusKey request.runId⟩ id now keyedAt
        (storable_of_printable hkey.2.1)
      have htold := hrefused
      simp only [Systems.inPlace, Wire.Call.outcome] at htold
      rcases refusal_of_told (hends _ _ _ _) htold with ⟨hstatus, hserves, hencodable⟩
      rcases exists_translated p.unreachable statusCode hserves with
        ⟨code, hvalue, hcode, htranslated⟩
      refine ⟨code, hvalue, hcode, hstatus, hencodable, ?_⟩
      simp only [run, takenIn, asksClaim, htaken, decided, hdecides, recorded, hrecords, emitted,
        hrefused, htranslated]

/-- What the systems refuse a run for that was let in, its caller at the entry point is
    told: their status, their code by its name, and their detail. The triager's
    store is left as it was if they refused the claim, and its rows with the run and
    its entry if they refused the status. -/
theorem intake_of_refused (read : Str → Str) {frames : Nat} (hframes : 5 ≤ frames)
    (l : Value.Layout) (rejection : Str → Str) (app : Surface.App) {request : Surface.Request}
    {buckets : Table Str Bucket} {systems : Systems} {p : Wiring} {store : Transaction.Store}
    (n : Nat) {documents : List Surface.UploadFile} {takenIn : IntakeRequest}
    {verdicts : List DocumentVerdicts} (hread : ¬ Surface.Unreadable request)
    (hadmits : Surface.Admits (entryPoint read frames l rejection app systems p store n) request
      buckets documents takenIn verdicts)
    (hcarried : Relay.Carried (asked request takenIn verdicts)) {after : Transaction.Store}
    {statusCode : Nat} {error : ErrorResponse}
    (hrefuses : Refuses systems p store (asked request takenIn verdicts) after statusCode error) :
    (run { p with systems := systems.overWire read frames } store
      (asked request takenIn verdicts)).2 = after ∧
    Leaves { p with systems := systems.inPlace } (asked request takenIn verdicts) store after ∧
    ∃ code : BoundaryCode, code.value = error.code.value ∧
      intake read frames l (Surface.postClaims
        (entryPoint read frames l rejection app systems p store n) request buckets).response =
        .error (.refused ⟨statusCode, code, error.detail⟩) := by
  have hone : 1 ≤ frames := (by decide : 1 ≤ 5).trans hframes
  have hthree : 3 ≤ frames := (by decide : 3 ≤ 5).trans hframes
  rcases run_of_refuses hrefuses with ⟨code, hvalue, hcode, hstatus, hencodable, hrun⟩
  have hsubmit : (entryPoint read frames l rejection app systems p store n).submit
      (asked request takenIn verdicts) = _ :=
    Relay.forward_iterate hframes _ hcarried n
  rw [run_overWire read hthree systems p store hcarried, hrun]
  refine ⟨rfl, leaves_of_refuses hrefuses, code, hvalue, ?_⟩
  rw [(postClaims_of_admits hread hadmits).2, hsubmit, Relay.hop_eq hone hone (by decide)
    Relay.plain_result Relay.apart_result, Relay.relayed_relayed,
    run_overWire read hthree systems p store hcarried, hrun]
  simp only [Relay.relayed, Relay.passed, Relay.Refused.passed, hencodable, ne_eq, hstatus,
    not_false_eq_true, and_self, if_true, hcode, if_false]

end Intake

section Example

/-- An entry point whose callers submit one claim, with no documents, against a policy
    the systems do not hold. -/
def unknownApp : Surface.App where
  guard := Surface.sampleGuard
  readers :=
    { pdf := fun _ => .error (text "Cannot read an empty file")
      zip := fun _ => .error (text "File is not a zip file") }
  validate := fun _ => .ok { Pipeline.claimed with policyNumber := text "SIM-2026-9999",
                                                   policyNumberValid := by decide }
  submit := fun _ => .error .other

/-- Their first submission. -/
def unknownRequest : Surface.Request where
  host := none
  opened := 0
  now := 0
  contentLength := none
  body := .form (text "\x7b\x7d") []
  runId := ⟨7, Uuid.seven_valid⟩

/-- Systems that answer, with the policies they hold from the start. -/
def answering : Systems where
  db _ := Client.answering
  drawn _ := (⟨1, Uuid.one_valid⟩, ⟨.third, .noon⟩, ⟨.third, .noon⟩)
  layout := Value.compact
  rejection _ := []
  others _ := .crashed

/-- A run over a store that answers. -/
def calm : Wiring where
  systems := answering.inPlace
  unreachable := []
  final := text "triaged"
  condition := ⟨fun _ => none, false⟩
  unavailable := []
  trace := none
  startedAt := ⟨.third, .noon⟩
  completedAt := ⟨.third, .noon⟩

/-- The run that is asked for. -/
def unknownRun : RunRequest :=
  { Pipeline.claimed with policyNumber := text "SIM-2026-9999", policyNumberValid := by decide }

theorem admits_unknown (app : Surface.App) (hguard : app.guard = Surface.sampleGuard)
    (hvalidate : app.validate = unknownApp.validate) :
    Surface.Admits app unknownRequest [] [] unknownRun.toIntakeRequest [] where
  token := by
    unfold Surface.HasToken
    rw [hguard]
    decide +kernel
  within := nofun
  claim := ⟨_, rfl, by rw [hvalidate]; rfl⟩
  screened := rfl
  clean := List.forall_mem_nil _

theorem answered_unknown (app : Surface.App) : ¬ Surface.Unanswered
    (withSubmit { unknownApp with submit := app.submit } app.submit) unknownRequest [] := by
  rintro ⟨_, ⟨s, hs, _⟩ | ⟨_, huncaught | hunwritable⟩⟩
  · cases hs
  · rcases huncaught with ⟨_, _, _, hbody, _, document, hdocument, _⟩
    cases hbody
    cases hdocument
  · rcases hunwritable with ⟨_, _, hbody, _⟩ | ⟨_, hbody, _⟩ | ⟨_, _, hbody, hrest⟩
    · cases hbody
    · cases hbody
    · cases hbody
      rcases hrest with ⟨_, hinvalid, _⟩ | ⟨_, _, _, _, _, hverdicts, hfirst, _⟩
      · cases hinvalid
      · cases hverdicts
        cases hfirst

/-- What is asked for the submission, and what its caller is told. -/
theorem intake_eq_unknown :
    let entry := entryPoint id 5 Value.compact id unknownApp answering calm Transaction.fresh 1
    (Surface.postClaims entry unknownRequest []).calls = [unknownRun] ∧
      intake id 5 Value.compact (Surface.postClaims entry unknownRequest []).response =
        Relay.relayed 201 RunResult.wire
          (run { calm with systems := answering.inPlace } Transaction.fresh unknownRun).1 := by
  intro entry
  have hadmits : Surface.Admits entry unknownRequest [] [] unknownRun.toIntakeRequest [] :=
    admits_unknown entry rfl rfl
  have hread : ¬ Surface.Unreadable unknownRequest := by
    rintro ⟨s, hs, _⟩
    cases hs
  rcases intake_eq id le_rfl Value.compact id unknownApp unknownRequest [] answering calm
    Transaction.fresh 1 (fun _ _ hbody => by cases hbody) with
    ⟨documents, takenIn, verdicts, hother, hcalls, hintake⟩ | ⟨_, _, _, _, hcalls, _⟩ |
      ⟨hunanswered, _⟩
  · rcases hother.claim with ⟨claim, hbody, hvalid⟩
    cases hbody
    cases hvalid
    have hscreened := hother.screened
    cases hscreened
    have hcarried : Relay.Carried unknownRun := by decide +kernel
    exact ⟨hcalls, hintake.trans (if_pos hcarried)⟩
  · have hasked : (Surface.postClaims entry unknownRequest []).calls = [unknownRun] ∧
        intake id 5 Value.compact (Surface.postClaims entry unknownRequest []).response =
          Relay.hop id 5 Value.compact 201 RunResult.wire (entry.submit unknownRun) :=
      postClaims_of_admits hread hadmits
    rw [hcalls] at hasked
    cases hasked.1
  · exact absurd hunanswered (answered_unknown entry)

/-- An unknown policy is told of at the entry point, over two boundaries, in the
    systems' own words. -/
theorem intake_of_refused_unknown :
    ∃ code : BoundaryCode, code.value = text "policy_not_found" ∧
      intake id 5 Value.compact (Surface.postClaims
        (entryPoint id 5 Value.compact id unknownApp answering calm Transaction.fresh 1)
        unknownRequest []).response =
        .error (.refused ⟨404, code, text "unknown policy SIM-2026-9999"⟩) := by
  have hrefuses : Refuses answering calm Transaction.fresh unknownRun Transaction.fresh 404
      ⟨.policyNotFound, text "unknown policy SIM-2026-9999"⟩ := .claim (by decide +kernel)
  have hread : ¬ Surface.Unreadable unknownRequest := by
    rintro ⟨s, hs, _⟩
    cases hs
  exact (intake_of_refused id le_rfl Value.compact id unknownApp 1 hread
    (admits_unknown _ rfl rfl) (by decide +kernel) hrefuses).2.2

end Example

end Stack

end ClaimTriage
