import ClaimTriage.CoreSim.Store
import ClaimTriage.Triage.Store

/-!
# The Pipeline

Any number of executions of the pipeline at once, over the surrounding systems
and the triage store.

An execution hands its claim to the systems, runs the graph, records the run and
its audit entry in one transaction, and only then tells the systems where the
claim got to. The systems and the store share no transaction: a call to the
systems is one step that may fail before it takes effect or lose its answer
after it did, the transaction is a statement at a time among those of the other
executions, and an execution may stop for good at any place.

A call to the systems is their write alone, which is what their interleaved
writes come to. What the graph decides is read as the contract's own enumeration
and is otherwise left open, and so are the clock, the identifiers the systems
make up and the trace an execution runs in.

## Main definitions

* `claimRequest`, `statusRequest`: The two writes an execution asks for.
* `Place`: How far an execution has got.
* `World`: The systems, the store, and every execution's place.
* `Action`, `step`: What an execution does next, and what comes of it.
* `Effect`: What a step can do, case by case.

## Theorems

* `effect_of_step`: Every step is one of the cases.
* `store_of_reachable`: The store is in order wherever the executions get to.
* `claimKey_inj`, `statusKey_inj`, `claimKey_ne_statusKey`: A run's two keys are
  its own.
-/

namespace ClaimTriage

open Theory Text Calendar

namespace Pipeline

/-! ### What an execution asks for -/

/-- The node the audit log records against a state change. -/
def node : Str := text "noop"

/-- The key a run's claim is taken in under. -/
def claimKey (runId : Uuid) : Str :=
  runId.text ++ text "/claim"

/-- The key a run's status is recorded under. -/
def statusKey (runId : Uuid) : Str :=
  runId.text ++ text "/status"

/-- Handing the claim to the systems. -/
def claimRequest (request : RunRequest) : CoreSim.Request where
  call := .create (submission request)
  key := claimKey request.runId

/-- Telling the systems where the claim got to. -/
def statusRequest (run : TriageRun) : CoreSim.Request where
  call := .recordStatus run.claimId run.status
  key := statusKey run.runId

/-- The identifier of the current trace as its text, nothing outside a span. -/
def traceText : Option (Fin (2 ^ 128)) → Str
  | none => []
  | some traceId => Numeral.fixed 16 32 traceId

/-- The run as it is recorded. -/
def runOf (request : RunRequest) (claimId : Uuid) (status : ClaimStatus)
    (trace : Option (Fin (2 ^ 128))) (startedAt completedAt : Moment) : TriageRun where
  runId := request.runId
  claimId := claimId
  experiment := request.experiment
  variant := request.variant
  status := status
  guardVerdicts := request.guardVerdicts
  traceId := traceText trace
  startedAt := startedAt.toDateTime
  completedAt := completedAt.toDateTime

/-- The entry's content for a run. -/
def contentOf (run : TriageRun) : Audit.AuditEntryContent where
  claimId := run.claimId
  runId := run.runId
  node := node
  actor := .agent
  status := run.status
  guardVerdicts := run.guardVerdicts
  experiment := run.experiment
  variant := run.variant
  traceId := run.traceId
  recordedAt := run.completedAt

/-- What a run emitted. -/
def resultOf (run : TriageRun) (emitted : ClaimStatus) : RunResult where
  runId := run.runId
  claimId := run.claimId
  status := emitted
  experiment := run.experiment
  variant := run.variant
  traceId := run.traceId

/-! ### Executions -/

/-- What an execution raises: something is unreachable, the systems refused, or
    a defect nobody translates. -/
inductive Failure where
  | unavailable
  | refused (refusal : CoreSim.Raised)
  | defect
  deriving DecidableEq

/-- What the systems raise, as the caller is told: the refusals the contract
    names, and a defect for everything else. -/
def relayed : CoreSim.Raised → Failure
  | .claimNotFound claimId => .refused (.claimNotFound claimId)
  | .policyNotFound policyNumber => .refused (.policyNotFound policyNumber)
  | .idempotencyKeyReuse key => .refused (.idempotencyKeyReuse key)
  | _ => .defect

/-- How far an execution has got. In the middle it has a run to record: its
    connection is yet to be opened, nothing is recorded, the run is and its
    entry is being appended, both are, or they are committed. `unwinding` is on
    its way out of a transaction that failed. -/
inductive Place where
  | unstarted
  | started (startedAt : Moment)
  | takenIn (startedAt : Moment) (claim : Claim)
  | opening (run : TriageRun)
  | recording (run : TriageRun)
  | appending (run : TriageRun)
  | appended (run : TriageRun)
  | recorded (run : TriageRun)
  | unwinding (failure : Failure)
  | returned (result : RunResult)
  | raised (failure : Failure)
  | crashed
  deriving DecidableEq

namespace Place

/-- The execution is over. -/
def Over : Place → Prop
  | returned _ | raised _ | crashed => True
  | _ => False

instance (place : Place) : Decidable place.Over := by
  cases place <;> simp only [Over] <;> infer_instance

/-- The execution is between calls, outside a transaction. -/
def Outside : Place → Prop
  | started _ | takenIn _ _ | opening _ | recorded _ => True
  | _ => False

instance (place : Place) : Decidable place.Outside := by
  cases place <;> simp only [Outside] <;> infer_instance

/-- The execution is inside its transaction. -/
def Inside : Place → Prop
  | recording _ | appending _ | appended _ => True
  | _ => False

instance (place : Place) : Decidable place.Inside := by
  cases place <;> simp only [Inside] <;> infer_instance

end Place

/-- What an execution does next. A call's answer may be lost, a statement or a
    call may fail, and the execution may stop. -/
inductive Action where
  | start (now : Moment)
  | takeIn (answered : Bool) (id : Uuid) (now keyedAt : Moment)
  | decide (final : Str) (trace : Option (Fin (2 ^ 128))) (now : Moment)
  | connect
  | recordRun
  | lockChain
  | readLast
  | insertEntry
  | commit
  | commitLost
  | statementFails (failure : Failure)
  | rollback
  | emit (answered : Bool) (now keyedAt : Moment)
  | fail (failure : Failure)
  | crash

/-- The statement an execution sends the store next, and the place it leads to
    if it does not raise. -/
def Place.sends : Place → Action → Option (TriageStore.Statement × Place)
  | opening run, .connect => some (.connect, recording run)
  | recording run, .recordRun => some (.recordRun run, appending run)
  | appending run, .lockChain => some (.lockChain (contentOf run), appending run)
  | appending run, .readLast => some (.readLast, appending run)
  | appending run, .insertEntry => some (.insertEntry, appended run)
  | appended run, .commit => some (.commit, recorded run)
  | _, _ => none

/-- The surrounding systems, the triage store, and every execution's place; with
    the claims that were taken in, each with the run it was taken in for. -/
structure World (ι : Type) where
  systems : CoreSim.Tables
  store : TriageStore.State ι
  place : ι → Place
  created : List (Uuid × Uuid)

namespace World

variable {ι : Type} [DecidableEq ι]

/-- Another place for one execution. -/
def goto (w : World ι) (i : ι) (place : Place) : World ι :=
  { w with place := Function.update w.place i place }

/-- A claim taken in, or found to have been before. -/
def taken (w : World ι) (i : ι) (request : RunRequest) (claim : Claim) (systems : CoreSim.Tables)
    (place : Place) : World ι :=
  { w with systems := systems, place := Function.update w.place i place,
           created := if (w.systems.idempotencyKeys (claimKey request.runId)).isNone then
             w.created ++ [(request.runId, claim.claimId)] else w.created }

/-- The systems told where a claim got to. -/
def told (w : World ι) (i : ι) (systems : CoreSim.Tables) (place : Place) : World ι :=
  { w with systems := systems, place := Function.update w.place i place }

/-- The store after a statement, and the execution's place with it. -/
def sent (w : World ι) (i : ι) (store : TriageStore.State ι) (place : Place) : World ι :=
  { w with store := store, place := Function.update w.place i place }

end World

section Machine

variable {ι : Type} [DecidableEq ι] (requests : ι → RunRequest)

/-- What comes of an execution's next action. -/
def step (w : World ι) (act : ι × Action) : Option (World ι) :=
  let i := act.1
  match act.2, w.place i with
  | .start now, .unstarted => some (w.goto i (.started now))
  | .takeIn answered id now keyedAt, .started startedAt =>
    match CoreSim.idempotent w.systems (claimRequest (requests i)) id now keyedAt with
    | .ok (.claim claim, systems) =>
      some (w.taken i (requests i) claim systems
        (if answered then .takenIn startedAt claim else .raised .unavailable))
    | .ok _ => none
    | .error e => some (w.goto i (.raised (if answered then relayed e else .unavailable)))
  | .decide final trace now, .takenIn startedAt claim =>
    -- A graph that ends without a status the contract names fails here.
    match ClaimStatus.codec.decode final with
    | some status =>
      some (w.goto i (.opening (runOf (requests i) claim.claimId status trace startedAt now)))
    | none => some (w.goto i (.raised .defect))
  | .emit answered now keyedAt, .recorded run =>
    match CoreSim.idempotent w.systems (statusRequest run) run.claimId now keyedAt with
    | .ok (.claim claim, systems) =>
      some (w.told i systems
        (if answered then .returned (resultOf run claim.status) else .raised .unavailable))
    | .ok _ => none
    | .error e => some (w.goto i (.raised (if answered then relayed e else .unavailable)))
  | .commitLost, .appended _ =>
    (TriageStore.step w.store (i, .commit)).map fun store => w.sent i store (.raised .defect)
  | .statementFails failure, place =>
    if place.Inside then
      (TriageStore.step w.store (i, .fail)).map fun store => w.sent i store (.unwinding failure)
    else none
  | .rollback, .unwinding failure =>
    (TriageStore.step w.store (i, .rollback)).map fun store => w.sent i store (.raised failure)
  | .fail failure, place => if place.Outside then some (w.goto i (.raised failure)) else none
  | .crash, place =>
    if place.Over then none
    -- An open transaction is rolled back once its connection is gone.
    else if (w.store.session i).Open then
      (TriageStore.step w.store (i, .rollback)).map fun store => w.sent i store .crashed
    else some (w.goto i .crashed)
  | action, place =>
    match place.sends action with
    | some (statement, next) =>
      (TriageStore.step w.store (i, statement)).map fun store =>
        w.sent i store (if (store.session i).Failed then .unwinding .defect else next)
    | none => none

/-- The systems with their policies and nothing else, an empty store, and no
    execution begun. -/
def start (policies : Str → Option Policy) : World ι where
  systems := ⟨policies, fun _ => none, [], [], fun _ => none⟩
  store := TriageStore.start
  place _ := .unstarted
  created := []

/-- The executions of a family of requests. -/
def machine (policies : Str → Option Policy) : Machine (World ι) (ι × Action) where
  init w := w = start policies
  step := step requests

end Machine

section Runs

variable {ι : Type} [DecidableEq ι] {requests : ι → RunRequest}

/-! ### What a step can do -/

/-- Where an execution goes without the systems or the store changing. -/
inductive Moves (request : RunRequest) : Place → Place → Prop
  | start {now : Moment} : Moves request .unstarted (.started now)
  | decide {startedAt now : Moment} {claim : Claim} {status : ClaimStatus}
      {trace : Option (Fin (2 ^ 128))} :
      Moves request (.takenIn startedAt claim)
        (.opening (runOf request claim.claimId status trace startedAt now))
  | fail {place : Place} {failure : Failure} : place.Outside → Moves request place (.raised failure)

/-- Everything a step of execution `i` can do, with what had to hold for it. -/
inductive Effect (requests : ι → RunRequest) (w : World ι) (i : ι) : World ι → Prop
  | move {place : Place} : Moves (requests i) (w.place i) place →
      Effect requests w i (w.goto i place)
  | taken {startedAt : Moment} {id : Uuid} {now keyedAt : Moment} {claim : Claim}
      {systems : CoreSim.Tables} {place : Place} : w.place i = .started startedAt →
      CoreSim.idempotent w.systems (claimRequest (requests i)) id now keyedAt =
        .ok (.claim claim, systems) →
      place = .takenIn startedAt claim ∨ place = .raised .unavailable →
      Effect requests w i (w.taken i (requests i) claim systems place)
  | told {run : TriageRun} {now keyedAt : Moment} {claim : Claim} {systems : CoreSim.Tables}
      {place : Place} : w.place i = .recorded run →
      CoreSim.idempotent w.systems (statusRequest run) run.claimId now keyedAt =
        .ok (.claim claim, systems) →
      place = .returned (resultOf run claim.status) ∨ place = .raised .unavailable →
      Effect requests w i (w.told i systems place)
  | sent {action : Action} {statement : TriageStore.Statement} {next : Place}
      {store : TriageStore.State ι} : (w.place i).sends action = some (statement, next) →
      TriageStore.Effect w.store i statement store → ¬ (store.session i).Failed →
      Effect requests w i (w.sent i store next)
  | sentFailed {action : Action} {statement : TriageStore.Statement} {next : Place}
      {store : TriageStore.State ι} : (w.place i).sends action = some (statement, next) →
      TriageStore.Effect w.store i statement store → (store.session i).Failed →
      Effect requests w i (w.sent i store (.unwinding .defect))
  | commitLost {run : TriageRun} {store : TriageStore.State ι} : w.place i = .appended run →
      TriageStore.Effect w.store i .commit store →
      Effect requests w i (w.sent i store (.raised .defect))
  | statementFails {failure : Failure} {store : TriageStore.State ι} : (w.place i).Inside →
      TriageStore.Effect w.store i .fail store →
      Effect requests w i (w.sent i store (.unwinding failure))
  | rollback {failure : Failure} {store : TriageStore.State ι} :
      w.place i = .unwinding failure → TriageStore.Effect w.store i .rollback store →
      Effect requests w i (w.sent i store (.raised failure))
  | crashOpen {store : TriageStore.State ι} : ¬ (w.place i).Over →
      TriageStore.Effect w.store i .rollback store → Effect requests w i (w.sent i store .crashed)
  | crash : ¬ (w.place i).Over → ¬ (w.store.session i).Open →
      Effect requests w i (w.goto i .crashed)

/-- Every step is one of the cases. -/
theorem effect_of_step {w w' : World ι} {i : ι} {a : Action}
    (h : step requests w (i, a) = some w') : Effect requests w i w' := by
  -- The cases are the step's own, in its order.
  simp only [step] at h
  split at h
  · rename_i now hs
    cases h
    exact .move (hs ▸ .start)
  · rename_i answered id now keyedAt startedAt hs
    split at h
    · rename_i claim systems hcall
      cases h
      -- Where the answer is lost the claim is taken in all the same.
      refine .taken hs hcall ?_
      cases answered
      · exact Or.inr rfl
      · exact Or.inl rfl
    · cases h
    · cases h
      exact .move (.fail (hs ▸ trivial))
  · rename_i final trace now startedAt claim hs
    split at h
    · cases h
      exact .move (hs ▸ .decide)
    · cases h
      exact .move (.fail (hs ▸ trivial))
  · rename_i answered now keyedAt run hs
    split at h
    · rename_i claim systems hcall
      cases h
      -- So is the status, where the answer to it is lost.
      refine .told hs hcall ?_
      cases answered
      · exact Or.inr rfl
      · exact Or.inl rfl
    · cases h
    · cases h
      exact .move (.fail (hs ▸ trivial))
  · rename_i run hs
    rcases Option.map_eq_some_iff.mp h with ⟨store, hstore, rfl⟩
    exact .commitLost hs (TriageStore.effect_of_step hstore)
  · split at h
    · rename_i hinside
      rcases Option.map_eq_some_iff.mp h with ⟨store, hstore, rfl⟩
      exact .statementFails hinside (TriageStore.effect_of_step hstore)
    · cases h
  · rename_i failure hs
    rcases Option.map_eq_some_iff.mp h with ⟨store, hstore, rfl⟩
    exact .rollback hs (TriageStore.effect_of_step hstore)
  · split at h
    · rename_i houtside
      cases h
      exact .move (.fail houtside)
    · cases h
  · split at h
    · cases h
    · rename_i hover
      -- A transaction that is open goes with its connection.
      split at h
      · rcases Option.map_eq_some_iff.mp h with ⟨store, hstore, rfl⟩
        exact .crashOpen hover (TriageStore.effect_of_step hstore)
      · rename_i hclosed
        cases h
        exact .crash hover hclosed
  · split at h
    · rename_i statement next hsends
      rcases Option.map_eq_some_iff.mp h with ⟨store, hstore, rfl⟩
      have he := TriageStore.effect_of_step hstore
      -- A statement the store refuses leaves the transaction to be unwound.
      split
      · rename_i hfailed
        exact .sentFailed hsends he hfailed
      · rename_i hfine
        exact .sent hsends he hfine
    · cases h

/-- Every step of the machine is one of the cases. -/
theorem effect_of_machine {policies : Str → Option Policy} {w w' : World ι} {i : ι} {a : Action}
    (h : (machine requests policies).step w (i, a) = some w') : Effect requests w i w' := by
  have hstep : (machine requests policies).step = step requests := rfl
  rw [hstep] at h
  exact effect_of_step h

/-- A step of an execution is one statement of its transaction, or leaves the
    store alone. -/
theorem Effect.store {w w' : World ι} {i : ι} (h : Effect requests w i w') :
    w'.store = w.store ∨ ∃ a, TriageStore.Effect w.store i a w'.store := by
  cases h with
  | move | taken | told | crash => exact Or.inl rfl
  | sent _ he | sentFailed _ he | commitLost _ he | statementFails _ he | rollback _ he
  | crashOpen _ he => exact Or.inr ⟨_, he⟩

/-- A step of one execution leaves the others at their places. -/
theorem Effect.place {w w' : World ι} {i : ι} (h : Effect requests w i w') {j : ι} (hji : j ≠ i) :
    w'.place j = w.place j := by
  cases h <;> exact Function.update_of_ne hji _ _

/-- The store is in order wherever the executions get to. -/
theorem store_of_reachable {policies : Str → Option Policy} {w : World ι}
    (h : (machine requests policies).Reachable w) :
    TriageStore.Inv w.store ∧ TriageStore.UniqueInv w.store := by
  refine h.induct (P := fun w => TriageStore.Inv w.store ∧ TriageStore.UniqueInv w.store) ?_ ?_
  · rintro w rfl
    have hstart : (TriageStore.machine ι).Reachable TriageStore.start :=
      Machine.reachable_init rfl
    exact ⟨TriageStore.inv_of_reachable hstart, TriageStore.uniqueInv_of_reachable hstart⟩
  · rintro w ⟨i, a⟩ w' ⟨hlog, hunique⟩ hstep
    have heffect := effect_of_machine hstep
    rcases heffect.store with hsame | ⟨b, he⟩
    · rw [hsame]
      exact ⟨hlog, hunique⟩
    · exact ⟨hlog.effect he, hunique.effect he⟩

end Runs

/-! ### Keys -/

theorem claimKey_inj {a b : Uuid} (h : claimKey a = claimKey b) : a = b :=
  Uuid.codec.encode_inj (List.append_cancel_right h)

theorem statusKey_inj {a b : Uuid} (h : statusKey a = statusKey b) : a = b :=
  Uuid.codec.encode_inj (List.append_cancel_right h)

/-- No run's claim is taken in under a key a status is recorded under. -/
theorem claimKey_ne_statusKey (a b : Uuid) : claimKey a ≠ statusKey b := by
  intro h
  have hlast := congrArg List.getLast? h
  have hm : (text "/claim").getLast? = some (ofChar 'm') := by decide
  have hs : (text "/status").getLast? = some (ofChar 's') := by decide
  rw [claimKey, statusKey, List.getLast?_append, List.getLast?_append, hm, hs, Option.some_or,
    Option.some_or, Option.some.injEq] at hlast
  exact absurd hlast (by decide)

/-- Keys are texts a text column takes. -/
theorem storable_claimKey (a : Uuid) : Storable (claimKey a) :=
  storable_of_printable ((printable_append _ _).mpr ⟨a.text_printable, by decide⟩)

theorem storable_statusKey (a : Uuid) : Storable (statusKey a) :=
  storable_of_printable ((printable_append _ _).mpr ⟨a.text_printable, by decide⟩)

end Pipeline

end ClaimTriage
