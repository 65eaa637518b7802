import ClaimTriage.Guards.Verdict

/-!
# Runs

A run is one pass of a claim through the pipeline: what asks for one, what it
answers with, and what is recorded of it.

The request at the boundary is the claim the surrounding systems accept, with
the arm to run it as; a run's request carries the identifier it is run under
and the verdicts it was let in with as well.

## Main definitions

* `IntakeRequest`, `RunRequest`: A claim as the boundary accepts it, and a run
  as it is asked for.
* `RunResult`: What a run emitted.
* `TriageRun`: A run as it is recorded.
* `submission`: The claim itself, as the contract takes it.
-/

namespace ClaimTriage

open Theory Calendar

/-- A claim as our boundary accepts it: the systems' claim, and the arm to run
    it as. -/
@[ext]
structure IntakeRequest extends ClaimSubmission where
  experiment : Str
  variant : Str
  deriving DecidableEq

/-- One run, asked for at the triager's boundary. -/
@[ext]
structure RunRequest extends IntakeRequest where
  runId : Uuid
  guardVerdicts : List DocumentVerdicts
  deriving DecidableEq

/-- What a run emitted: which claim moved, where it moved to, and what to look
    it up by. -/
@[ext]
structure RunResult where
  runId : Uuid
  claimId : Uuid
  status : ClaimStatus
  experiment : Str
  variant : Str
  traceId : Str
  deriving DecidableEq

/-- One pass of a claim through the graph, as the triager records it. -/
@[ext]
structure TriageRun where
  runId : Uuid
  claimId : Uuid
  experiment : Str
  variant : Str
  status : ClaimStatus
  guardVerdicts : List DocumentVerdicts
  traceId : Str
  startedAt : DateTime
  completedAt : DateTime
  deriving DecidableEq

/-- The claim itself, as the contract takes it. -/
def submission (request : RunRequest) : ClaimSubmission :=
  request.toClaimSubmission

end ClaimTriage
