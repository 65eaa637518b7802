import ClaimTriage.Triage.Run

/-!
# The Boundary

What our own boundaries answer when a call cannot be served: one shape for every
failure, a code and a detail, whoever it came from.

A response is written as UTF-8, and a detail may carry a text of the caller's. A
text with a surrogate in it cannot be written so; then no answer of the boundary's
shape comes of the failure.

## Main definitions

* `BoundaryCode`, `BoundaryError`: What a caller is refused with.
* `Raised`: What a route may raise.
* `Response`: What a request is answered with.
* `refusal`, `answer`: The response of a failure.
* `handled`: The response of what a route raised.

## Theorems

* `encodable_of_printable`: A printable text can be written.
-/

namespace ClaimTriage

namespace Boundary

open Theory Text

/-- What a caller of our own boundaries can be refused with. -/
inductive BoundaryCode where
  | invalidPayload
  | claimNotFound
  | policyNotFound
  | idempotencyKeyReuse
  | serviceUnavailable
  | notFound
  | unsupportedMediaType
  | payloadTooLarge
  | documentRefused
  | rateLimited
  deriving DecidableEq

/-- The text a code crosses the wire as. -/
def BoundaryCode.value : BoundaryCode → Str
  | invalidPayload => text "invalid_payload"
  | claimNotFound => text "claim_not_found"
  | policyNotFound => text "policy_not_found"
  | idempotencyKeyReuse => text "idempotency_key_reuse"
  | serviceUnavailable => text "service_unavailable"
  | notFound => text "not_found"
  | unsupportedMediaType => text "unsupported_media_type"
  | payloadTooLarge => text "payload_too_large"
  | documentRefused => text "document_refused"
  | rateLimited => text "rate_limited"

/-- The shape of every failure our own boundaries answer with. -/
structure BoundaryError where
  code : BoundaryCode
  detail : Str
  deriving DecidableEq

/-- A refusal the caller can act on, with the status the boundary answered. -/
structure Refused where
  statusCode : Nat
  error : BoundaryError
  deriving DecidableEq

/-- What may be raised where a request is served: that the call cannot be served
    now, a refusal, what the framework refuses before a route, and anything else,
    which nothing here answers. -/
inductive Raised where
  | unavailable (detail : Str)
  | refused (refused : Refused)
  | beforeRoute (statusCode : Nat) (detail : Str)
  | outsideWire (rejectedLocations : Str)
  | other
  deriving DecidableEq

/-- What a request is answered with: a run's result, a failure in the boundary's
    shape, perhaps with how long to wait, or a failure in no shape of ours. -/
inductive Response where
  | created (result : RunResult)
  | failed (statusCode : Nat) (error : BoundaryError) (retryAfter : Option Int)
  | crashed
  deriving DecidableEq

/-- A text UTF-8 has bytes for. -/
def Encodable (s : Str) : Prop :=
  ∀ c ∈ s, ¬ IsHigh c ∧ ¬ IsLow c

instance (s : Str) : Decidable (Encodable s) :=
  List.decidableBAll _ s

/-- One error shape for every failure, whoever is answering it. -/
def refusal (statusCode : Nat) (code : BoundaryCode) (detail : Str) (retryAfter : Option Int) :
    Response :=
  if Encodable detail then .failed statusCode ⟨code, detail⟩ retryAfter else .crashed

/-- The response a refusal is. -/
def answer (refused : Refused) (retryAfter : Option Int) : Response :=
  refusal refused.statusCode refused.error.code refused.error.detail retryAfter

/-- Which of our codes the framework's own refusals answer with, by status. -/
def refusedBeforeARoute (statusCode : Nat) : BoundaryCode :=
  if statusCode = 404 then .notFound
  else if statusCode = 415 then .unsupportedMediaType
  else .invalidPayload

/-- What a route raised, answered in the boundary's shape. -/
def handled : Raised → Response
  | .unavailable detail => refusal 503 .serviceUnavailable detail none
  | .refused refused => answer refused none
  | .beforeRoute statusCode detail =>
      refusal statusCode (refusedBeforeARoute statusCode) detail none
  | .outsideWire rejectedLocations => refusal 422 .invalidPayload rejectedLocations none
  | .other => .crashed

theorem encodable_append {s t : Str} : Encodable (s ++ t) ↔ Encodable s ∧ Encodable t :=
  List.forall_mem_append

/-- A printable text can be written. -/
theorem encodable_of_printable {s : Str} (h : Printable s) : Encodable s := by
  intro c hc
  have hrange := h c hc
  unfold IsHigh IsLow
  omega

/-- A text that can be written holds no surrogate pair. -/
theorem noPair_of_encodable {s : Str} (h : Encodable s) : NoPair s := by
  induction s with
  | nil => exact List.IsChain.nil
  | cons a rest ih =>
      refine List.isChain_cons.mpr ⟨fun b _ hpair => (h a List.mem_cons_self).1 hpair.1, ?_⟩
      exact ih fun c hc => h c (List.mem_cons_of_mem _ hc)

theorem refusal_of_encodable {statusCode : Nat} {code : BoundaryCode} {detail : Str}
    {retryAfter : Option Int} (h : Encodable detail) :
    refusal statusCode code detail retryAfter = .failed statusCode ⟨code, detail⟩ retryAfter :=
  if_pos h

theorem refusal_of_not_encodable {statusCode : Nat} {code : BoundaryCode} {detail : Str}
    {retryAfter : Option Int} (h : ¬ Encodable detail) :
    refusal statusCode code detail retryAfter = .crashed :=
  if_neg h

end Boundary

end ClaimTriage
