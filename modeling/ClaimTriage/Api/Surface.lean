import ClaimTriage.Boundary
import ClaimTriage.Guards.Ingress
import ClaimTriage.Guards.RateLimit

/-!
# The Entry Point

The one place that decides what may come in. A caller's rate and a submission's
declared length are checked before its body is read, the claim is parsed, every
document is screened, and only what passed all of it is handed to the triager.

A submission is let in exactly when it passed, and refused by the first check
that failed, except for three ways to be answered by neither: a declared length
that counts as digits and is not a number the interpreter reads, a document
whose reader raises where nothing catches it, and a refusal whose text cannot be
written (`admission_iff`).

The first of the three is about the checks before the body is read alone. One
predicate says what counts as digits, another what is read as a number, and the
two part where a digit is written above the line or there are too many of them
(`unreadable_iff`); everywhere else a declared length is screened for what it is
(`lengthScreened_iff`).

## Main definitions

* `GuardSettings`: What the guards allow.
* `App`: What the entry point is built over.
* `Request`: A submission as the framework hands it over.
* `screenSubmissions`: What is checked before the body is read.
* `admitted`, `submitClaim`: The run a submission asks for, and asking for it.
* `postClaims`: A submission served.
* `Admits`: A submission passes every check.
* `FirstFailed`: What the first check it fails means on the wire.
* `AdmissionHolds`: It is let in or refused as the checks say.
* `LengthScreened`: It is refused for its declared length or let through to its
  route as the length says.

## Theorems

* `screenSubmissions_cases`: What comes of the checks before the body is read.
* `admitted_cases`: What comes of those after.
* `holds_of_answered`, `crashed_of_unanswered`: What becomes of a submission that its
  checks answer, and of one they do not.
* `admission_iff`: When a submission is let in or refused as the checks say.
* `lengthScreened_iff`: When a declared length is screened for what it is.
-/

namespace ClaimTriage

namespace Surface

open Theory Text Numeral Recency Boundary Ingress

/-- What the guards allow. A threshold that would refuse everything is rejected
    where it is configured. -/
structure GuardSettings where
  mediaTypes : List Str
  maxSubmissionBytes : Int
  maxDocumentBytes : Int
  maxDocumentPages : Int
  maxArchiveExpansionRatio : ℚ
  rateLimitBurst : Int
  rateLimitRefillPerSecond : ℚ
  mediaTypes_nodup : mediaTypes.Nodup
  submissionBytes_pos : 0 < maxSubmissionBytes
  documentBytes_pos : 0 < maxDocumentBytes
  documentPages_pos : 0 < maxDocumentPages
  expansionRatio_pos : 0 < maxArchiveExpansionRatio
  burst_pos : 0 < rateLimitBurst
  refill_pos : 0 < rateLimitRefillPerSecond

/-- What the ingress takes of them. -/
def GuardSettings.limits (guard : GuardSettings) : IngressLimits where
  mediaTypes := guard.mediaTypes
  maxSubmissionBytes := guard.maxSubmissionBytes
  maxBytes := guard.maxDocumentBytes
  maxPages := guard.maxDocumentPages
  maxExpansionRatio := guard.maxArchiveExpansionRatio
  nodup := guard.mediaTypes_nodup

/-- What the limiters take of them. -/
def GuardSettings.rateLimit (guard : GuardSettings) : RateLimit where
  burst := guard.rateLimitBurst
  refillPerSecond := guard.rateLimitRefillPerSecond

/-- How many callers can be counted at once. -/
def defaultKeys : Nat :=
  1024

/-- What the rate limit counts when the transport cannot say who called. -/
def callerUnknown : Str :=
  text "unknown"

/-- A file part, as the framework hands it over. -/
structure UploadFile where
  filename : Option Str
  contentType : Option Str
  file : List UInt8

/-- What the framework makes of a body: nothing it can parse, parts that do not
    bind, or the claim and its documents. -/
inductive Body where
  | unparsed (statusCode : Nat) (detail : Str)
  | unbound (rejectedLocations : Str)
  | form (claim : Str) (documents : List UploadFile)

/-- A submission: who it is from, what the clock reads for it (to a bucket that has
    to be made, and to be taken from), what its transport declares it carries, what
    it carries, and the identifier minted for its run. -/
structure Request where
  host : Option Str
  opened : ℚ
  now : ℚ
  contentLength : Option (List (Fin 256))
  body : Body
  runId : Uuid

/-- What the entry point is built over: the guards' settings, what reads documents,
    what makes a claim of a text or says what is wrong with it, and the boundary
    it forwards to. -/
structure App where
  guard : GuardSettings
  readers : Readers
  validate : Str → Except Str IntakeRequest
  submit : RunRequest → Except Raised RunResult

/-- What each check a caller can fail means on the wire. -/
def refusals : Check → Nat × BoundaryCode
  | .size => (413, .payloadTooLarge)
  | .mediaType => (415, .unsupportedMediaType)
  | .structural => (422, .documentRefused)
  | .encryption => (422, .documentRefused)
  | .archive => (422, .documentRefused)
  | .pageCount => (422, .documentRefused)
  | .rateLimit => (429, .rateLimited)

/-- What a failed check means on the wire: its status, its code, and what it
    found. -/
def refusedBy (filename : Option Str) (verdict : Verdict) : Refused where
  statusCode := (refusals verdict.check).1
  error :=
    { code := (refusals verdict.check).2
      detail := (match filename with
        | some name => name ++ text ": "
        | none => []) ++ verdict.check.value ++ text ": " ++ verdict.detail }

/-- Who to count a submission against. -/
def caller (request : Request) : Str :=
  request.host.getD callerUnknown

/-- How the limiters see a submission. -/
def call (request : Request) : Limiters.Call :=
  ⟨caller request, request.opened, request.now⟩

/-- A byte of a header that counts as a digit: the ten, and the three that are
    written above a line. -/
def IsDigitByte (c : Fin 256) : Prop :=
  (0x30 ≤ c.val ∧ c.val ≤ 0x39) ∨ c.val ∈ [0xB2, 0xB3, 0xB9]

instance (c : Fin 256) : Decidable (IsDigitByte c) :=
  inferInstanceAs (Decidable (_ ∨ _))

/-- Every byte of a header counts as a digit, and there are some. -/
def Isdigit (s : List (Fin 256)) : Prop :=
  s ≠ [] ∧ ∀ c ∈ s, IsDigitByte c

instance (s : List (Fin 256)) : Decidable (Isdigit s) :=
  @instDecidableAnd _ _ inferInstance (List.decidableBAll _ _)

/-- A header's bytes as the text they are decoded to. -/
def latin1 (s : List (Fin 256)) : Str :=
  s.map fun c => ⟨c.val, by omega⟩

/-- A numeral the interpreter reads: the ten digits only, and not too many. -/
def Readable (s : List (Fin 256)) : Prop :=
  (∀ c ∈ latin1 s, IsDigit c) ∧ s.length ≤ maxStrDigits

instance (s : List (Fin 256)) : Decidable (Readable s) :=
  @instDecidableAnd _ _ (List.decidableBAll _ _) (Nat.decLe _ _)

/-- How much the transport says a submission carries, if it says so at all. -/
def declaredLength (header : Option (List (Fin 256))) : Except Raised (Option Nat) :=
  match header with
  | none => .ok none
  | some s =>
      if ¬ Isdigit s then .ok none
      -- Not everything that counts as digits is read as a number.
      else if ¬ Readable s then .error .other
      else .ok (some (value 10 (latin1 s)))

section Serve

variable (app : App)

/-- What is checked before a submission's body is read: nothing, or the response
    that refuses it. -/
def screenSubmissions (request : Request) (buckets : Table Str Bucket) :
    Except Raised (Option Response) × Table Str Bucket :=
  let (admission, taken) :=
    Limiters.take app.guard.rateLimit defaultKeys (call request) buckets
  (match admission with
    | none => .error .other
    | some admission =>
        if ¬ admission.verdict.passed then
          .ok (some (answer (refusedBy none admission.verdict)
            (some (max ⌈admission.waitSeconds⌉ 1))))
        else
          match declaredLength request.contentLength with
          | .error raised => .error raised
          | .ok declared =>
              let verdict := declaredSize declared app.guard.limits
              if ¬ verdict.passed then .ok (some (answer (refusedBy none verdict) none))
              else .ok none,
    taken)

/-- The claim as the model takes it, or the refusal naming the field that was
    wrong. -/
def claimOf (part : Str) : Except Raised IntakeRequest :=
  match app.validate part with
  | .ok claim => .ok claim
  | .error rejectedFields => .error (.refused ⟨422, .invalidPayload, rejectedFields⟩)

/-- One file part as the ingress takes it, read no further than the ceiling
    allows. -/
def upload (document : UploadFile) : Upload where
  filename := if document.filename.getD [] = [] then text "unnamed" else document.filename.getD []
  mediaType := document.contentType.getD []
  content := readBounded document.file app.guard.limits.maxBytes

/-- The verdicts on a submission's documents. -/
def verdictsOf (documents : List UploadFile) : Except Str (List DocumentVerdicts) :=
  screen app.readers (documents.map (upload app)) app.guard.limits

/-- The run a claim and its documents ask for, or what they are refused with. -/
def admitted (claim : Str) (documents : List UploadFile) (runId : Uuid) :
    Except Raised RunRequest := do
  let takenIn ← claimOf app claim
  let verdicts ← (verdictsOf app documents).mapError fun _ => Raised.other
  match firstRefusal verdicts with
  | some (filename, verdict) => throw (.refused (refusedBy (some filename) verdict))
  | none => return { takenIn with runId := runId, guardVerdicts := verdicts }

/-- Take one claim and its documents in: the runs the triager is asked to carry, and
    what comes of it. -/
def submitClaim (claim : Str) (documents : List UploadFile) (runId : Uuid) :
    List RunRequest × Except Raised RunResult :=
  match admitted app claim documents runId with
  | .error raised => ([], .error raised)
  | .ok request => ([request], app.submit request)

/-- A submission past the first checks, in the route it is for. -/
def route (request : Request) : List RunRequest × Response :=
  match request.body with
  | .unparsed statusCode detail => ([], handled (.beforeRoute statusCode detail))
  | .unbound rejectedLocations => ([], handled (.outsideWire rejectedLocations))
  | .form claim documents =>
      let (calls, result) := submitClaim app claim documents request.runId
      (calls, match result with
        | .ok result => .created result
        | .error raised => handled raised)

/-- What comes of a submission: the runs the triager was asked to carry, the
    response, and the limiters' table after it. -/
structure Served where
  calls : List RunRequest
  response : Response
  buckets : Table Str Bucket

/-- A submission served. What the first checks raise is outside of what handles
    what a route does. -/
def postClaims (request : Request) (buckets : Table Str Bucket) : Served :=
  let (screened, taken) := screenSubmissions app request buckets
  match screened with
  | .error _ => ⟨[], .crashed, taken⟩
  | .ok (some response) => ⟨[], response, taken⟩
  | .ok none => ⟨(route app request).1, (route app request).2, taken⟩

/-- The caller's bucket has a token when the submission is taken for. -/
def HasToken (request : Request) (buckets : Table Str Bucket) : Prop :=
  1 ≤ (((get buckets (caller request)).getD
    (Bucket.new app.guard.rateLimit request.opened)).refill app.guard.rateLimit request.now).tokens

/-- No length is declared that is past what a submission may carry. A header
    declares a length if it is a decimal number. -/
def DeclaredWithin (request : Request) : Prop :=
  ∀ s ∈ request.contentLength, s ≠ [] → (∀ c ∈ latin1 s, IsDigit c) →
    (value 10 (latin1 s) : Int) ≤ app.guard.maxSubmissionBytes

/-- The submission passes every check: this claim with these documents, and these
    verdicts on them. -/
structure Admits (request : Request) (buckets : Table Str Bucket) (documents : List UploadFile)
    (takenIn : IntakeRequest) (verdicts : List DocumentVerdicts) : Prop where
  token : HasToken app request buckets
  within : DeclaredWithin app request
  claim : ∃ claim, request.body = .form claim documents ∧ app.validate claim = .ok takenIn
  screened : verdictsOf app documents = .ok verdicts
  clean : ∀ document ∈ verdicts, Clean document

/-- The first check a submission fails, in the order they are asked, and the status
    and the code this means on the wire. -/
inductive FirstFailed (request : Request) (buckets : Table Str Bucket) :
    Nat → BoundaryCode → Prop
  | rateLimit (token : ¬ HasToken app request buckets) :
      FirstFailed request buckets (refusals .rateLimit).1 (refusals .rateLimit).2
  | size (token : HasToken app request buckets) (past : ¬ DeclaredWithin app request) :
      FirstFailed request buckets (refusals .size).1 (refusals .size).2
  | unparsed (token : HasToken app request buckets) (within : DeclaredWithin app request)
      {statusCode : Nat} {detail : Str} (body : request.body = .unparsed statusCode detail) :
      FirstFailed request buckets statusCode (refusedBeforeARoute statusCode)
  | unbound (token : HasToken app request buckets) (within : DeclaredWithin app request)
      {detail : Str} (body : request.body = .unbound detail) :
      FirstFailed request buckets 422 .invalidPayload
  | claim (token : HasToken app request buckets) (within : DeclaredWithin app request)
      {claim detail : Str} {documents : List UploadFile}
    (body : request.body = .form claim documents)
      (invalid : app.validate claim = .error detail) :
      FirstFailed request buckets 422 .invalidPayload
  | document (token : HasToken app request buckets) (within : DeclaredWithin app request)
      {claim : Str} {documents : List UploadFile} {takenIn : IntakeRequest}
      (body : request.body = .form claim documents) (valid : app.validate claim = .ok takenIn)
      {pre post : List DocumentVerdicts} {refusedOne : DocumentVerdicts}
      (screened : verdictsOf app documents = .ok (pre ++ refusedOne :: post))
      (clean : ∀ d ∈ pre, Clean d) {before after : List Verdict} {verdict : Verdict}
      (verdicts : refusedOne.verdicts = before ++ verdict :: after)
      (passed : ∀ v ∈ before, v.passed = true) (refuses : verdict.passed = false) :
      FirstFailed request buckets (refusals verdict.check).1 (refusals verdict.check).2

/-- A submission is let in or refused as the checks say: the triager is asked at most
    once, and exactly if every check passes; then for a run of the claim that was
    submitted, with a list of verdicts a document, in their order, none empty and
    none with a refusal; and otherwise the answer is what the first failed check
    means. -/
def AdmissionHolds (request : Request) (buckets : Table Str Bucket) : Prop :=
  let served := postClaims app request buckets
  served.calls.length ≤ 1 ∧
  (served.calls ≠ [] ↔
    ∃ documents takenIn verdicts, Admits app request buckets documents takenIn verdicts) ∧
  (∀ asked ∈ served.calls, ∃ claim documents, request.body = .form claim documents ∧
    app.validate claim = .ok asked.toIntakeRequest ∧
    List.Forall₂ (fun (document : UploadFile) (d : DocumentVerdicts) =>
      d.filename = (upload app document).filename ∧ d.mediaType = (upload app document).mediaType ∧
        d.verdicts ≠ []) documents asked.guardVerdicts ∧
    ∀ d ∈ asked.guardVerdicts, Clean d) ∧
  (served.calls = [] → ∃ statusCode code detail retryAfter,
    FirstFailed app request buckets statusCode code ∧
      served.response = .failed statusCode ⟨code, detail⟩ retryAfter)

/-- A declared length counts as digits and cannot be read. -/
def Unreadable (request : Request) : Prop :=
  ∃ s ∈ request.contentLength, Isdigit s ∧ ¬ Readable s

/-- Asking whether a document is encrypted raises, where the claim is one. -/
def Uncaught (request : Request) : Prop :=
  ∃ claim documents takenIn, request.body = .form claim documents ∧
    app.validate claim = .ok takenIn ∧
      ∃ document ∈ documents, FlagRaises app.readers app.guard.limits (upload app document)

/-- What a submission is refused with by the route cannot be written: what is wrong
    with its body or its claim, or the name of the document refused first or what
    was found of it. -/
def Unwritable (request : Request) : Prop :=
  (∃ statusCode detail, request.body = .unparsed statusCode detail ∧ ¬ Encodable detail) ∨
  (∃ detail, request.body = .unbound detail ∧ ¬ Encodable detail) ∨
  ∃ claim documents, request.body = .form claim documents ∧
    ((∃ detail, app.validate claim = .error detail ∧ ¬ Encodable detail) ∨
      ∃ takenIn verdicts filename verdict, app.validate claim = .ok takenIn ∧
        verdictsOf app documents = .ok verdicts ∧
        firstRefusal verdicts = some (filename, verdict) ∧
        ¬ (Encodable filename ∧ Encodable verdict.detail))

/-- A submission is answered by none of its checks: it has a token, and its declared
    length cannot be read, or it is within what it may carry and its route raises
    what nothing catches or refuses it with what cannot be written. -/
def Unanswered (request : Request) (buckets : Table Str Bucket) : Prop :=
  HasToken app request buckets ∧
    (Unreadable request ∨
      DeclaredWithin app request ∧ (Uncaught app request ∨ Unwritable app request))

end Serve

section Admission

variable {app : App} {request : Request} {buckets : Table Str Bucket}

theorem encodable_refusedBy {filename : Option Str} {verdict : Verdict} :
    Encodable (refusedBy filename verdict).error.detail ↔
      (∀ name ∈ filename, Encodable name) ∧ Encodable verdict.detail := by
  have hcheck : Encodable (verdict.check.value ++ text ": ") := by
    cases verdict.check <;> decide +kernel
  have hcolon : Encodable (text ": ") := by decide +kernel
  unfold refusedBy
  rw [List.append_assoc, List.append_assoc, encodable_append, ← List.append_assoc,
    encodable_append]
  cases filename with
  | none =>
      simp only [hcheck, true_and, Option.not_mem_none, false_imp_iff, implies_true,
        and_iff_right_iff_imp]
      exact fun _ => List.forall_mem_nil _
  | some name =>
      simp only [encodable_append, hcolon, hcheck, and_true, true_and, Option.mem_some_iff,
        forall_eq']

/-- The response a failed check is, where its text can be written. -/
theorem answer_refusedBy {filename : Option Str} {verdict : Verdict} {retryAfter : Option Int}
    (hname : ∀ name ∈ filename, Encodable name) (hdetail : Encodable verdict.detail) :
    answer (refusedBy filename verdict) retryAfter =
      .failed (refusals verdict.check).1
        ⟨(refusals verdict.check).2, (refusedBy filename verdict).error.detail⟩ retryAfter :=
  refusal_of_encodable (encodable_refusedBy.mpr ⟨hname, hdetail⟩)

/-- A caller without a token is refused for it, with how long to wait. -/
theorem take_of_spent (guard : GuardSettings) (call : Limiters.Call)
    (h : ¬ 1 ≤ (((get buckets call.caller).getD (Bucket.new guard.rateLimit call.opened)).refill
      guard.rateLimit call.now).tokens) :
    ∃ admission, (Limiters.take guard.rateLimit defaultKeys call buckets).1 = some admission ∧
      admission.verdict.check = .rateLimit ∧ admission.verdict.passed = false ∧
      Encodable admission.verdict.detail := by
  rw [Limiters.take_answer]
  unfold Bucket.take
  simp only [if_neg h]
  have hrefill : guard.rateLimit.refillPerSecond ≠ 0 := guard.refill_pos.ne'
  rw [if_neg hrefill]
  refine ⟨_, rfl, rfl, rfl, encodable_of_printable ?_⟩
  simp only [printable_append, printable_signed, Rounding.printable_fixed, and_true]
  decide +kernel

/-- A caller with a token is let past the limiters. -/
theorem take_of_token (guard : GuardSettings) (call : Limiters.Call)
    (h : 1 ≤ (((get buckets call.caller).getD (Bucket.new guard.rateLimit call.opened)).refill
      guard.rateLimit call.now).tokens) :
    ∃ admission, (Limiters.take guard.rateLimit defaultKeys call buckets).1 = some admission ∧
      admission.verdict.passed = true := by
  rw [Limiters.take_answer]
  exact (Bucket.take_of_le h).1

/-- A header declares no length, or a number, or counts as digits and is not read. -/
theorem declaredLength_cases (header : Option (List (Fin 256))) :
    ((∃ s ∈ header, Isdigit s ∧ ¬ Readable s) ∧ declaredLength header = .error .other) ∨
    ((¬ ∃ s ∈ header, Isdigit s ∧ ¬ Readable s) ∧ ∃ declared, declaredLength header = .ok declared ∧
      ∀ n : Int, (∀ d ∈ declared, (d : Int) ≤ n) ↔
        ∀ s ∈ header, s ≠ [] → (∀ c ∈ latin1 s, IsDigit c) → (value 10 (latin1 s) : Int) ≤ n) := by
  unfold declaredLength
  cases header with
  | none =>
      refine Or.inr ⟨fun ⟨_, h, _⟩ => absurd h (Option.not_mem_none _), none, rfl, fun n => ?_⟩
      exact ⟨fun _ _ h => absurd h (Option.not_mem_none _),
        fun _ _ h => absurd h (Option.not_mem_none _)⟩
  | some s =>
      simp only [Option.mem_some_iff, exists_eq_left', forall_eq']
      by_cases hdigit : Isdigit s
      · rw [if_neg (not_not.mpr hdigit)]
        by_cases hread : Readable s
        · rw [if_neg (not_not.mpr hread)]
          refine Or.inr ⟨fun h => h.2 hread, _, rfl, fun n => ?_⟩
          simp only [Option.mem_some_iff, forall_eq']
          exact ⟨fun h _ _ => h, fun h => h hdigit.1 hread.1⟩
        · rw [if_pos hread]
          exact Or.inl ⟨⟨hdigit, hread⟩, rfl⟩
      · -- A header that is not all digits is not read at all.
        rw [if_pos hdigit]
        refine Or.inr ⟨fun h => hdigit h.1, none, rfl, fun n => ?_⟩
        refine ⟨fun _ hne hall => absurd ⟨hne, fun c hc => ?_⟩ hdigit,
          fun _ _ h => absurd h (Option.not_mem_none _)⟩
        -- A byte whose character is a digit counts as one.
        exact Or.inl (hall ⟨c.val, by omega⟩ (List.mem_map_of_mem hc))

theorem declaredSize_passed (declared : Option Nat) (limits : IngressLimits) :
    (declaredSize declared limits).passed = true ↔
      ∀ d ∈ declared, (d : Int) ≤ limits.maxSubmissionBytes := by
  unfold declaredSize
  cases declared with
  | none => exact ⟨fun _ _ h => absurd h (Option.not_mem_none _), fun _ => rfl⟩
  | some d =>
      simp only [Option.mem_some_iff, forall_eq']
      split
      · rename_i h
        exact ⟨nofun, fun hle => absurd h (not_lt.mpr hle)⟩
      · rename_i h
        exact ⟨fun _ => not_lt.mp h, fun _ => rfl⟩

theorem declaredSize_check (declared : Option Nat) (limits : IngressLimits) :
    (declaredSize declared limits).check = .size ∧
      Encodable (declaredSize declared limits).detail := by
  unfold declaredSize
  cases declared with
  | none =>
      have hlength : Encodable
          (text "the submission declares no length, so its size is bounded as it is read") := by
        decide +kernel
      exact ⟨rfl, hlength⟩
  | some d =>
      simp only
      split
      · refine ⟨rfl, encodable_of_printable ?_⟩
        simp only [refused, printable_append, printable_signed, printable_decimal, and_true]
        decide +kernel
      · refine ⟨rfl, encodable_of_printable ?_⟩
        simp only [passed, printable_append, printable_signed, printable_decimal, and_true]
        decide +kernel

variable (app) (request) (buckets) in
/-- The checks before the body is read refuse for the token first, then for the
    length, which may be one that cannot be read; or they refuse nothing. -/
theorem screenSubmissions_cases :
    (¬ HasToken app request buckets ∧ ∃ detail retryAfter,
      (screenSubmissions app request buckets).1 =
        .ok (some (.failed 429 ⟨.rateLimited, detail⟩ retryAfter))) ∨
    (HasToken app request buckets ∧ Unreadable request ∧
      (screenSubmissions app request buckets).1 = .error .other) ∨
    (HasToken app request buckets ∧ ¬ Unreadable request ∧ ¬ DeclaredWithin app request ∧
      ∃ detail, (screenSubmissions app request buckets).1 =
        .ok (some (.failed 413 ⟨.payloadTooLarge, detail⟩ none))) ∨
    (HasToken app request buckets ∧ ¬ Unreadable request ∧ DeclaredWithin app request ∧
      (screenSubmissions app request buckets).1 = .ok none) := by
  unfold screenSubmissions
  -- A spent bucket answers before the length is looked at.
  by_cases htoken : HasToken app request buckets
  · rcases take_of_token app.guard (call request) htoken with ⟨admission, htake, hpassed⟩
    simp only [htake, hpassed, not_true_eq_false, if_false]
    rcases declaredLength_cases request.contentLength with
      ⟨hunread, hlength⟩ | ⟨hread, declared, hlength, hwithin⟩
    · rw [hlength]
      exact Or.inr (Or.inl ⟨htoken, hunread, rfl⟩)
    · rw [hlength]
      have hpassedIff := declaredSize_passed declared app.guard.limits
      rcases declaredSize_check declared app.guard.limits with
        ⟨hcheck, hdetail⟩
      by_cases hpast : (declaredSize declared app.guard.limits).passed = true
      · refine Or.inr (Or.inr (Or.inr ⟨htoken, hread, (hwithin _).mp (hpassedIff.mp hpast), ?_⟩))
        simp only [hpast, not_true_eq_false, if_false]
      · refine Or.inr (Or.inr (Or.inl ⟨htoken, hread,
          fun h => hpast (hpassedIff.mpr ((hwithin _).mpr h)),
          (refusedBy none (declaredSize declared app.guard.limits)).error.detail, ?_⟩))
        simp only [hpast]
        rw [answer_refusedBy (fun _ h => absurd h (Option.not_mem_none _)) hdetail, hcheck]
        rfl
  · rcases take_of_spent app.guard (call request) htoken with
      ⟨admission, htake, hcheck, hpassed, hdetail⟩
    refine Or.inl ⟨htoken, (refusedBy none admission.verdict).error.detail,
      some (max ⌈admission.waitSeconds⌉ 1), ?_⟩
    simp only [htake, hpassed, Bool.false_eq_true, not_false_eq_true, if_true]
    rw [answer_refusedBy (fun _ h => absurd h (Option.not_mem_none _)) hdetail, hcheck]
    rfl

/-- A submission that failed a check did not pass them all. -/
theorem not_admits_of_firstFailed {statusCode : Nat} {code : BoundaryCode}
    (h : FirstFailed app request buckets statusCode code) {documents : List UploadFile}
    {takenIn : IntakeRequest} {verdicts : List DocumentVerdicts} :
    ¬ Admits app request buckets documents takenIn verdicts := by
  rintro ⟨htoken, hwithin, ⟨claim, hbody, hvalid⟩, hscreened, hclean⟩
  cases h with
  | rateLimit token => exact token htoken
  | size _ past => exact past hwithin
  | unparsed _ _ body =>
      rw [hbody] at body
      cases body
  | unbound _ _ body =>
      rw [hbody] at body
      cases body
  | claim _ _ body invalid =>
      rw [hbody] at body
      cases body
      rw [hvalid] at invalid
      cases invalid
  | document _ _ body _ screened _ verdicts _ refuses =>
      rw [hbody] at body
      cases body
      rw [hscreened] at screened
      cases screened
      have hpassed := hclean _ (List.mem_append_right _ List.mem_cons_self) _
        (verdicts ▸ List.mem_append_right _ List.mem_cons_self)
      rw [refuses] at hpassed
      cases hpassed

theorem holds_of_failed (hcalls : (postClaims app request buckets).calls = []) {statusCode : Nat}
    {code : BoundaryCode} {detail : Str} {retryAfter : Option Int}
    (hresponse : (postClaims app request buckets).response =
      .failed statusCode ⟨code, detail⟩ retryAfter)
    (hfirst : FirstFailed app request buckets statusCode code) :
    AdmissionHolds app request buckets := by
  unfold AdmissionHolds
  simp only [hcalls]
  refine ⟨Nat.zero_le 1, ⟨fun h => absurd rfl h, ?_⟩, fun _ h => absurd h List.not_mem_nil,
    fun _ => ⟨statusCode, code, detail, retryAfter, hfirst, hresponse⟩⟩
  rintro ⟨_, _, _, hadmits⟩
  exact absurd hadmits (not_admits_of_firstFailed hfirst)

theorem not_holds_of_crashed (hcalls : (postClaims app request buckets).calls = [])
    (hresponse : (postClaims app request buckets).response = .crashed) :
    ¬ AdmissionHolds app request buckets := by
  rintro ⟨_, _, _, hrefused⟩
  rcases hrefused hcalls with ⟨_, _, _, _, _, hfailed⟩
  rw [hresponse] at hfailed
  cases hfailed

section Admitted

variable {claim : Str} {documents : List UploadFile} {runId : Uuid} {takenIn : IntakeRequest}
variable {verdicts : List DocumentVerdicts}

theorem admitted_of_invalid {detail : Str} (h : app.validate claim = .error detail) :
    admitted app claim documents runId = .error (.refused ⟨422, .invalidPayload, detail⟩) := by
  simp only [admitted, claimOf, h]
  rfl

theorem admitted_of_raised {raised : Str} (hvalid : app.validate claim = .ok takenIn)
    (h : verdictsOf app documents = .error raised) :
    admitted app claim documents runId = .error .other := by
  simp only [admitted, claimOf, hvalid, h]
  rfl

/-- The answer is the first refusal that is found, whatever the rest say. -/
theorem admitted_of_refused {filename : Str} {verdict : Verdict}
    (hvalid : app.validate claim = .ok takenIn)
    (hverdicts : verdictsOf app documents = .ok verdicts)
    (h : firstRefusal verdicts = some (filename, verdict)) :
    admitted app claim documents runId = .error (.refused (refusedBy (some filename) verdict)) := by
  simp only [admitted, claimOf, hvalid, hverdicts]
  change (match firstRefusal verdicts with
    | some (filename, verdict) => _
    | none => _) = _
  rw [h]
  rfl

theorem admitted_of_clean (hvalid : app.validate claim = .ok takenIn)
    (hverdicts : verdictsOf app documents = .ok verdicts) (h : firstRefusal verdicts = none) :
    admitted app claim documents runId =
      .ok { takenIn with runId := runId, guardVerdicts := verdicts } := by
  simp only [admitted, claimOf, hvalid, hverdicts]
  change (match firstRefusal verdicts with
    | some (filename, verdict) => _
    | none => _) = _
  rw [h]
  rfl

end Admitted

/-- What comes of a claim and its documents: it is invalid, a reader raises, a
    document is refused, or there is a run of it. -/
theorem admitted_cases (app : App) (claim : Str) (documents : List UploadFile) (runId : Uuid) :
    (∃ detail, app.validate claim = .error detail ∧
      admitted app claim documents runId = .error (.refused ⟨422, .invalidPayload, detail⟩)) ∨
    ∃ takenIn, app.validate claim = .ok takenIn ∧
      ((∃ raised, verdictsOf app documents = .error raised ∧
        admitted app claim documents runId = .error .other) ∨
      ∃ verdicts, verdictsOf app documents = .ok verdicts ∧
        ((∃ filename verdict, firstRefusal verdicts = some (filename, verdict) ∧
          admitted app claim documents runId =
            .error (.refused (refusedBy (some filename) verdict))) ∨
        (firstRefusal verdicts = none ∧ admitted app claim documents runId =
          .ok { takenIn with runId := runId, guardVerdicts := verdicts }))) := by
  cases hvalid : app.validate claim with
  | error detail => exact Or.inl ⟨detail, rfl, admitted_of_invalid hvalid⟩
  | ok takenIn =>
      refine Or.inr ⟨takenIn, rfl, ?_⟩
      cases hverdicts : verdictsOf app documents with
      | error raised => exact Or.inl ⟨raised, rfl, admitted_of_raised hvalid hverdicts⟩
      | ok verdicts =>
          refine Or.inr ⟨verdicts, rfl, ?_⟩
          cases hfirst : firstRefusal verdicts with
          | some found =>
              exact Or.inl ⟨found.1, found.2, rfl, admitted_of_refused hvalid hverdicts hfirst⟩
          | none => exact Or.inr ⟨rfl, admitted_of_clean hvalid hverdicts hfirst⟩

theorem postClaims_of_screened : ∀ {screened : Except Raised (Option Response)},
    (screenSubmissions app request buckets).1 = screened →
    postClaims app request buckets = match screened with
      | .error _ => ⟨[], .crashed, (screenSubmissions app request buckets).2⟩
      | .ok (some response) => ⟨[], response, (screenSubmissions app request buckets).2⟩
      | .ok none => ⟨(route app request).1, (route app request).2,
          (screenSubmissions app request buckets).2⟩ := by
  intro screened h
  rw [← h]
  rfl

theorem uncaught_iff {claim : Str} {documents : List UploadFile} {takenIn : IntakeRequest}
    (hbody : request.body = .form claim documents) (hvalid : app.validate claim = .ok takenIn) :
    Uncaught app request ↔ ∃ raised, verdictsOf app documents = .error raised := by
  unfold Uncaught verdictsOf
  rw [screen_eq_error_iff, hbody]
  constructor
  · rintro ⟨_, _, _, hform, _, document, hdocument, h⟩
    cases hform
    exact ⟨upload app document, List.mem_map_of_mem hdocument, h⟩
  · rintro ⟨_, hupload, h⟩
    rcases List.mem_map.mp hupload with ⟨document, hdocument, rfl⟩
    exact ⟨claim, documents, takenIn, rfl, hvalid, document, hdocument, h⟩

/-- What the route refuses is answered as the checks say if it can be written. -/
theorem holds_of_refused (hpast : (screenSubmissions app request buckets).1 = .ok none)
    {statusCode : Nat} {code : BoundaryCode} {detail : Str}
    (hroute : route app request = ([], refusal statusCode code detail none))
    (hfirst : FirstFailed app request buckets statusCode code) (h : Encodable detail) :
    AdmissionHolds app request buckets := by
  rw [refusal_of_encodable h] at hroute
  exact holds_of_failed (by rw [postClaims_of_screened hpast, hroute])
    (by rw [postClaims_of_screened hpast, hroute]) hfirst

/-- Past the first checks, a submission is answered as the rest say if its route raises
    nothing uncaught and refuses with nothing that cannot be written. -/
theorem holds_of_route (htoken : HasToken app request buckets)
    (hwithin : DeclaredWithin app request)
    (hpast : (screenSubmissions app request buckets).1 = .ok none)
    (huncaught : ¬ Uncaught app request) (hunwritable : ¬ Unwritable app request) :
    AdmissionHolds app request buckets := by
  cases hbody : request.body with
  | unparsed statusCode detail =>
      refine holds_of_refused hpast ?_ (.unparsed htoken hwithin hbody)
        (of_not_not fun h => hunwritable (Or.inl ⟨statusCode, detail, hbody, h⟩))
      simp only [route, hbody, handled]
  | unbound rejectedLocations =>
      refine holds_of_refused hpast ?_ (.unbound htoken hwithin hbody)
        (of_not_not fun h => hunwritable (Or.inr (Or.inl ⟨rejectedLocations, hbody, h⟩)))
      simp only [route, hbody, handled]
  | form claim documents =>
      have hrejected : ∀ {given : Refused},
          admitted app claim documents request.runId = .error (.refused given) →
          route app request =
            ([], refusal given.statusCode given.error.code given.error.detail none) := by
        intro given hadmitted
        simp only [route, hbody, submitClaim, hadmitted, handled, answer]
      rcases admitted_cases app claim documents request.runId with
        ⟨detail, hinvalid, hadmitted⟩ | ⟨takenIn, hvalid, ⟨raised, hraised, _⟩ |
          ⟨verdicts, hverdicts, ⟨filename, verdict, hfirst, hadmitted⟩ | ⟨hnone, hadmitted⟩⟩⟩
      · exact holds_of_refused hpast (hrejected hadmitted) (.claim htoken hwithin hbody hinvalid)
          (of_not_not fun h => hunwritable
            (Or.inr (Or.inr ⟨claim, documents, hbody, Or.inl ⟨detail, hinvalid, h⟩⟩)))
      · exact absurd ((uncaught_iff hbody hvalid).mpr ⟨raised, hraised⟩) huncaught
      · rcases firstRefusal_eq_some hfirst with
          ⟨pre, document, post, before, after, hsplit, hpre, _, hfound, hbefore, hrefused⟩
        have hencodable : Encodable filename ∧ Encodable verdict.detail :=
          of_not_not fun h => hunwritable (Or.inr (Or.inr ⟨claim, documents, hbody,
            Or.inr ⟨takenIn, verdicts, filename, verdict, hvalid, hverdicts, hfirst, h⟩⟩))
        refine holds_of_refused hpast (hrejected hadmitted)
          (.document htoken hwithin hbody hvalid (hsplit ▸ hverdicts) hpre hfound hbefore hrefused)
          (encodable_refusedBy.mpr ⟨?_, hencodable.2⟩)
        rintro _ ⟨⟩
        exact hencodable.1
      · have hclean := firstRefusal_eq_none_iff.mp hnone
        have hadmits : Admits app request buckets documents takenIn verdicts :=
          ⟨htoken, hwithin, ⟨claim, hbody, hvalid⟩, hverdicts, hclean⟩
        unfold AdmissionHolds
        simp only [postClaims_of_screened hpast, route, hbody, submitClaim, hadmitted]
        refine ⟨le_refl 1, ⟨fun _ => ⟨documents, takenIn, verdicts, hadmits⟩,
          fun _ => List.cons_ne_nil _ _⟩, fun asked hasked => ?_,
          fun h => absurd h (List.cons_ne_nil _ _)⟩
        rw [List.mem_singleton.mp hasked]
        exact ⟨claim, documents, rfl, hvalid,
          List.forall₂_map_left_iff.mp (forall₂_screen hverdicts), hclean⟩

/-- A submission that one of its checks answers is let in or refused as they say. -/
theorem holds_of_answered (h : ¬ Unanswered app request buckets) :
    AdmissionHolds app request buckets := by
  rcases screenSubmissions_cases app request buckets with
    ⟨htoken, detail, retryAfter, hscreened⟩ | ⟨htoken, hunread, _⟩ |
    ⟨htoken, hread, hpast, detail, hscreened⟩ | ⟨htoken, hread, hwithin, hscreened⟩
  · have hresponse : (postClaims app request buckets).response =
        .failed 429 ⟨.rateLimited, detail⟩ retryAfter := by rw [postClaims_of_screened hscreened]
    exact holds_of_failed (by rw [postClaims_of_screened hscreened]) hresponse (.rateLimit htoken)
  · exact absurd ⟨htoken, Or.inl hunread⟩ h
  · have hresponse : (postClaims app request buckets).response =
        .failed 413 ⟨.payloadTooLarge, detail⟩ none := by rw [postClaims_of_screened hscreened]
    exact holds_of_failed (by rw [postClaims_of_screened hscreened]) hresponse (.size htoken hpast)
  · exact holds_of_route htoken hwithin hscreened
      (fun huncaught => h ⟨htoken, Or.inr ⟨hwithin, Or.inl huncaught⟩⟩)
      fun hunwritable => h ⟨htoken, Or.inr ⟨hwithin, Or.inr hunwritable⟩⟩

/-- A route that raises what nothing catches, or refuses with what cannot be written,
    asks for nothing and is answered by no handler. -/
theorem route_eq_crashed (h : Uncaught app request ∨ Unwritable app request) :
    route app request = ([], .crashed) := by
  rcases h with huncaught | ⟨statusCode, detail, hbody, h⟩ | ⟨detail, hbody, h⟩ |
    ⟨claim, documents, hbody, ⟨detail, hinvalid, h⟩ |
      ⟨takenIn, verdicts, filename, verdict, hvalid, hverdicts, hfirst, h⟩⟩
  · rcases huncaught with ⟨claim, documents, takenIn, hbody, hvalid, hraises⟩
    rcases (uncaught_iff hbody hvalid).mp ⟨claim, documents, takenIn, hbody, hvalid, hraises⟩ with
      ⟨raised, hraised⟩
    simp only [route, hbody, submitClaim, admitted_of_raised hvalid hraised]
    rfl
  · simp only [route, hbody, handled, refusal_of_not_encodable h]
  · simp only [route, hbody, handled, refusal_of_not_encodable h]
  · simp only [route, hbody, submitClaim, admitted_of_invalid hinvalid, handled, answer,
      refusal_of_not_encodable h]
  · have hdetail : ¬ Encodable (refusedBy (some filename) verdict).error.detail := by
      intro hencodable
      rcases encodable_refusedBy.mp hencodable with ⟨hname, hfound⟩
      exact h ⟨hname filename rfl, hfound⟩
    simp only [route, hbody, submitClaim, admitted_of_refused hvalid hverdicts hfirst, handled,
      answer, refusal_of_not_encodable hdetail]

/-- A submission that none of its checks answers is asked for nowhere, and answered by
    no handler. -/
theorem crashed_of_unanswered (h : Unanswered app request buckets) :
    (postClaims app request buckets).calls = [] ∧
      (postClaims app request buckets).response = .crashed := by
  rcases screenSubmissions_cases app request buckets with
    ⟨htoken, _, _, _⟩ | ⟨_, _, hscreened⟩ | ⟨_, hread, hpast, _, _⟩ | ⟨_, hread, _, hscreened⟩
  · exact absurd h.1 htoken
  · rw [postClaims_of_screened hscreened]
    exact ⟨rfl, rfl⟩
  · exact absurd (h.2.resolve_left hread).1 hpast
  · rw [postClaims_of_screened hscreened, route_eq_crashed (h.2.resolve_left hread).2]
    exact ⟨rfl, rfl⟩

variable (app) (request) (buckets) in
/-- A submission is let in or refused as its checks say exactly if one of them
    answers it: its declared length, if it comes to that, can be read, its documents'
    readers raise nothing that is not caught, and what it is refused with can be
    written. -/
theorem admission_iff :
    AdmissionHolds app request buckets ↔ ¬ Unanswered app request buckets :=
  ⟨fun hholds hunanswered => not_holds_of_crashed (crashed_of_unanswered hunanswered).1
    (crashed_of_unanswered hunanswered).2 hholds, holds_of_answered⟩

end Admission

section Length

variable (app : App)

/-- A submission declares, as a decimal number, more than it may carry. -/
def DeclaresPast (request : Request) : Prop :=
  ∃ s ∈ request.contentLength, s ≠ [] ∧ (∀ c ∈ latin1 s, IsDigit c) ∧
    app.guard.maxSubmissionBytes < (value 10 (latin1 s) : Int)

/-- A declared length is digits, and one of them is written above the line or there
    are more of them than the interpreter makes a number of. -/
def Miscounted (request : Request) : Prop :=
  ∃ s ∈ request.contentLength, Isdigit s ∧
    ((∃ c ∈ s, c.val ∈ [0xB2, 0xB3, 0xB9]) ∨ maxStrDigits < s.length)

/-- What is checked before a submission's body is read goes by the length it
    declares. Nothing is raised; a caller without a token is told so; and with one a
    submission is refused as too large exactly if it declares a decimal number past
    what it may carry, and is otherwise handed to its route. -/
structure LengthScreened (request : Request) (buckets : Table Str Bucket) : Prop where
  answers : ∃ screened, (screenSubmissions app request buckets).1 = .ok screened
  limited : ¬ HasToken app request buckets → ∃ error retryAfter,
    (screenSubmissions app request buckets).1 = .ok (some (.failed 429 error retryAfter))
  refuses : HasToken app request buckets →
    ((∃ error retryAfter, (screenSubmissions app request buckets).1 =
      .ok (some (.failed 413 error retryAfter))) ↔ DeclaresPast app request)
  through : HasToken app request buckets → ¬ DeclaresPast app request →
    (screenSubmissions app request buckets).1 = .ok none ∧
      postClaims app request buckets = ⟨(route app request).1, (route app request).2,
        (screenSubmissions app request buckets).2⟩

variable {app} {request : Request} {buckets : Table Str Bucket}

theorem declaresPast_iff : DeclaresPast app request ↔ ¬ DeclaredWithin app request := by
  unfold DeclaresPast DeclaredWithin
  push Not
  rfl

/-- The interpreter reads what counts as digits unless one of them is written above
    the line or there are too many. -/
theorem readable_iff {s : List (Fin 256)} (h : Isdigit s) :
    Readable s ↔ ¬ ((∃ c ∈ s, c.val ∈ [0xB2, 0xB3, 0xB9]) ∨ maxStrDigits < s.length) := by
  have hdigits : (∀ c ∈ latin1 s, IsDigit c) ↔ ¬ ∃ c ∈ s, c.val ∈ [0xB2, 0xB3, 0xB9] := by
    unfold latin1
    rw [List.forall_mem_map]
    push Not
    refine forall₂_congr fun c hc => ⟨fun hten habove => ?_, fun hten => ?_⟩
    · -- None of the three is one of the ten.
      have hrange : 0x30 ≤ c.val ∧ c.val ≤ 0x39 := hten
      simp only [List.mem_cons, List.not_mem_nil, or_false] at habove
      omega
    · exact (h.2 c hc).resolve_right hten
  unfold Readable
  rw [hdigits, not_or, not_lt]

/-- What counts as digits and what is read as a number part on exactly these
    lengths. -/
theorem unreadable_iff : Unreadable request ↔ Miscounted request := by
  unfold Unreadable Miscounted
  refine exists_congr fun s => and_congr_right fun _ => and_congr_right fun hdigit => ?_
  rw [readable_iff hdigit, not_not]

variable (app) (request) (buckets) in
/-- What is checked before the body is read goes by the declared length exactly if
    it does not come to one that counts as digits and is read as no number. -/
theorem lengthScreened_iff :
    LengthScreened app request buckets ↔
      ¬ (HasToken app request buckets ∧ Miscounted request) := by
  rw [← unreadable_iff]
  rcases screenSubmissions_cases app request buckets with
    ⟨htoken, detail, retryAfter, h⟩ | ⟨htoken, hunread, h⟩ | ⟨htoken, hread, hpast, detail, h⟩ |
    ⟨htoken, hread, hwithin, h⟩
  · refine iff_of_true ?_ fun hun => htoken hun.1
    exact ⟨⟨_, h⟩, fun _ => ⟨_, _, h⟩, fun hhas => absurd hhas htoken,
      fun hhas => absurd hhas htoken⟩
  · refine iff_of_false (fun hscreened => ?_) (not_not.mpr ⟨htoken, hunread⟩)
    rcases hscreened.answers with ⟨screened, hok⟩
    rw [h] at hok
    cases hok
  · have hdeclares := declaresPast_iff.mpr hpast
    refine iff_of_true ?_ fun hun => hread hun.2
    exact ⟨⟨_, h⟩, fun hnot => absurd htoken hnot,
      fun _ => iff_of_true ⟨_, _, h⟩ hdeclares, fun _ hnot => absurd hdeclares hnot⟩
  · have hdeclares : ¬ DeclaresPast app request := fun hd => declaresPast_iff.mp hd hwithin
    refine iff_of_true ?_ fun hun => hread hun.2
    refine ⟨⟨_, h⟩, fun hnot => absurd htoken hnot, fun _ => iff_of_false ?_ hdeclares,
      fun _ _ => ⟨h, postClaims_of_screened h⟩⟩
    rintro ⟨error, retryAfter, hrefused⟩
    rw [h] at hrefused
    cases hrefused

end Length

section Example

/-- Settings of a deployment that takes both types. -/
def sampleGuard : GuardSettings where
  mediaTypes := [pdfType, zipType]
  maxSubmissionBytes := 33554432
  maxDocumentBytes := 8388608
  maxDocumentPages := 40
  maxArchiveExpansionRatio := 100
  rateLimitBurst := 20
  rateLimitRefillPerSecond := 5
  mediaTypes_nodup := by decide +kernel
  submissionBytes_pos := by decide
  documentBytes_pos := by decide
  documentPages_pos := by decide
  expansionRatio_pos := by decide +kernel
  burst_pos := by decide
  refill_pos := by decide +kernel

/-- An entry point whose callers send no claim and no documents. -/
def sampleApp : App where
  guard := sampleGuard
  readers :=
    { pdf := fun _ => .error (text "Cannot read an empty file")
      zip := fun _ => .error (text "File is not a zip file") }
  validate := fun _ => .error (text "policy_number: Field required; " ++
    text "incident_date: Field required; claim_amount_eur: Field required")
  submit := fun _ => .error (.unavailable (text "connection refused"))

/-- A caller's first submission, with this for its declared length. -/
def sampleRequest (contentLength : List (Fin 256)) : Request where
  host := some (text "10.0.0.1")
  opened := 0
  now := 0
  contentLength := some contentLength
  body := .form (text "\x7b\x7d") []
  runId := ⟨1, Uuid.one_valid⟩

/-- An entry point whose callers send a claim. -/
def takingApp : App where
  guard := sampleGuard
  readers := sampleApp.readers
  validate := fun _ => .ok
    ⟨⟨text "SIM-2026-0002", .third, ⟨⟨250, 0⟩, by decide, by decide, by decide⟩, by decide⟩,
      text "baseline", text "control"⟩
  submit := sampleApp.submit

/-- A caller's first submission, with a document of a type that is not taken, whose
    name is half a surrogate pair. -/
def halvedRequest : Request where
  host := some (text "10.0.0.1")
  opened := 0
  now := 0
  contentLength := none
  body := .form (text "\x7b\x7d") [⟨some [0xD800], some (text "text/plain"), []⟩]
  runId := ⟨1, Uuid.one_valid⟩

/-- The name of a refused document cannot be written, and a declared length of a
    superscript two counts as digits and is read as no number: neither submission is
    answered by any of its checks. -/
theorem not_admission_unwritable :
    ¬ AdmissionHolds takingApp halvedRequest [] ∧
      ¬ AdmissionHolds sampleApp (sampleRequest [0xB2]) [] := by
  refine ⟨not_holds_of_crashed ?_ ?_, not_holds_of_crashed ?_ ?_⟩
  · decide +kernel
  · decide +kernel
  · decide +kernel
  · decide +kernel

/-- A declared length of a superscript two is neither refused as too large nor handed to
    the route. -/
theorem not_lengthScreened_superscript :
    ¬ LengthScreened sampleApp (sampleRequest [0xB2]) [] := by
  rintro ⟨⟨screened, hscreened⟩, -⟩
  have hraised : (screenSubmissions sampleApp (sampleRequest [0xB2]) []).1.isOk = false := by
    decide +kernel
  rw [hscreened] at hraised
  cases hraised

end Example

end Surface

end ClaimTriage
