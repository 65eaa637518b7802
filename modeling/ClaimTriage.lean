import ClaimTriage.Theory.Text
import ClaimTriage.Theory.Numeral
import ClaimTriage.Theory.Amount
import ClaimTriage.Theory.Calendar
import ClaimTriage.Theory.Decimal
import ClaimTriage.Theory.Json
import ClaimTriage.Theory.Codec
import ClaimTriage.Theory.Form
import ClaimTriage.Theory.Columns
import ClaimTriage.Theory.Machine
import ClaimTriage.Theory.Linear
import ClaimTriage.Theory.Observe
import ClaimTriage.Theory.Progress
import ClaimTriage.Theory.Isolation
import ClaimTriage.Theory.Chain
import ClaimTriage.Theory.Sha256
import ClaimTriage.Theory.Except
import ClaimTriage.Theory.Lines
import ClaimTriage.Theory.Dict
import ClaimTriage.Theory.Index
import ClaimTriage.Theory.Yaml
import ClaimTriage.Theory.Rounding
import ClaimTriage.Theory.Recency
import ClaimTriage.Theory.Ordered
import ClaimTriage.Theory.Precision
import ClaimTriage.Theory.Confusion
import ClaimTriage.Theory.Value
import ClaimTriage.Theory.Loads
import ClaimTriage.Theory.Exchange
import ClaimTriage.Model.Port
import ClaimTriage.Model.Replay
import ClaimTriage.Model.Recall
import ClaimTriage.Contract.Models
import ClaimTriage.CoreSim.Store
import ClaimTriage.CoreSim.Writes
import ClaimTriage.CoreSim.History
import ClaimTriage.CoreSim.Parties
import ClaimTriage.Contract.Client
import ClaimTriage.CoreSim.AsReceived
import ClaimTriage.CoreSim.Fingerprint
import ClaimTriage.Guards.Verdict
import ClaimTriage.Guards.RateLimit
import ClaimTriage.Guards.Ingress
import ClaimTriage.Evaluation.Material
import ClaimTriage.Evaluation.Sets
import ClaimTriage.Evaluation.Answers
import ClaimTriage.Evaluation.Metrics
import ClaimTriage.Evaluation.Compare
import ClaimTriage.Evaluation.Correction
import ClaimTriage.Evaluation.Curve
import ClaimTriage.Evaluation.Scoring
import ClaimTriage.Evaluation.Labels
import ClaimTriage.Evaluation.Gate
import ClaimTriage.Evaluation.Runner
import ClaimTriage.Evaluation.Proportions
import ClaimTriage.Evaluation.Ranks
import ClaimTriage.Evaluation.Record
import ClaimTriage.Evaluation.Rerun
import ClaimTriage.Evaluation.Shapes
import ClaimTriage.Evaluation.Written
import ClaimTriage.Evaluation.BaselineFile
import ClaimTriage.Evaluation.Better
import ClaimTriage.Evaluation.ExitCode
import ClaimTriage.Evaluation.Unordered
import ClaimTriage.Evaluation.Reordered
import ClaimTriage.Triage.Audit
import ClaimTriage.Triage.Run
import ClaimTriage.Boundary
import ClaimTriage.Api.Surface
import ClaimTriage.Api.Waiting
import ClaimTriage.CoreSim.Linear
import ClaimTriage.CoreSim.Progress
import ClaimTriage.CoreSim.Reads
import ClaimTriage.CoreSim.App
import ClaimTriage.Contract.Wire
import ClaimTriage.Triage.Store
import ClaimTriage.Triage.ReadBack
import ClaimTriage.Schema
import ClaimTriage.Triage.Pipeline
import ClaimTriage.Triage.FirstAttempt
import ClaimTriage.Triage.Serial
import ClaimTriage.Triage.Transaction
import ClaimTriage.Triage.Evidence
import ClaimTriage.Triage.Standing
import ClaimTriage.Triage.Retry
import ClaimTriage.Triage.Relay
import ClaimTriage.Api.Stack
import ClaimTriage.Api.Log
import ClaimTriage.Codegen.Render
import ClaimTriage.Codegen.Models
import ClaimTriage.Codegen.Client
import ClaimTriage.Codegen.Reading
import ClaimTriage.Codegen.Operations
import ClaimTriage.Codegen.Frames
import ClaimTriage.Codegen.Keywords
import ClaimTriage.Codegen.Faithful
import ClaimTriage.Codegen.Calls
import ClaimTriage.Api.Throughput
