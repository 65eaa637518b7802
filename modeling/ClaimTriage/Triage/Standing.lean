import ClaimTriage.Triage.Evidence

/-!
# Where Claims Stand

What the surrounding systems hold of the claims that runs handed them.

A run hands its claim over under a key of its own, so the systems take in one
claim for it however often it is tried, and tell a try with another submission
apart. They move the claim once, when they are first told of the run, and what
they are told again is what they answered. A claim is therefore where it was
received, or at the status of the run that was recorded for it.

## Main definitions

* `moved`: A claim's row once the systems were told of its run.
* `Standing`: What the systems hold of a claim taken in for a run.
* `Carries`: What an execution at a place was given by the systems.
* `SystemsInv`: The invariant of the systems and the claims taken in.
* `Closed`: A run with one claim, one record, one entry and one transition.

## Theorems

* `systems_of_reachable`: The invariant holds wherever the executions get to.
* `closed_of_returned`: An execution that returned has closed its run.
-/

namespace ClaimTriage

open Theory Text Calendar

namespace Pipeline

/-- A claim's row once the systems were told of its run. -/
def moved (row : Claim) (status : ClaimStatus) (now : Moment) : Claim :=
  CoreSim.withStatus (CoreSim.transitioned (CoreSim.stored row) status now) row

section Runs

variable {ι : Type} [DecidableEq ι] {requests : ι → RunRequest}

/-- What the systems hold of a claim taken in for a run: the key records what it
    was taken in for, and the claim is as it was received, or it is at the
    status of the run that was recorded. -/
def Standing (w : World ι) (runId claimId : Uuid) : Prop :=
  ∃ submission receivedAt keyedAt, Storable submission.policyNumber ∧
    w.systems.idempotencyKeys (claimKey runId) =
      some (CoreSim.keyRow ⟨.create submission, claimKey runId⟩
        (.claim (CoreSim.received submission claimId receivedAt)) keyedAt) ∧
    ((w.systems.idempotencyKeys (statusKey runId) = none ∧
        w.systems.claims claimId = some (CoreSim.received submission claimId receivedAt)) ∨
      ∃ run ∈ w.store.db.committed.triageRuns, run.runId = runId ∧
        (w.systems.idempotencyKeys (statusKey runId)).isSome ∧ ∃ toldAt,
          w.systems.claims claimId =
            some (moved (CoreSim.received submission claimId receivedAt) run.status toldAt))

/-- The claim was taken in for the run, for a submission that the systems do not
    tell from the request's. -/
def Taken (w : World ι) (request : RunRequest) (claimId : Uuid) : Prop :=
  (request.runId, claimId) ∈ w.created ∧
    ∃ row, w.systems.idempotencyKeys (claimKey request.runId) = some row ∧
      row.fingerprint = CoreSim.fingerprint (claimRequest request).call

/-- The run is the request's, for the claim taken in for it. -/
def RunFor (w : World ι) (request : RunRequest) (run : TriageRun) : Prop :=
  Taken w request run.claimId ∧ ∃ status trace startedAt completedAt,
    run = runOf request run.claimId status trace startedAt completedAt

/-- The columns take what a request gives its run. -/
def Recordable (request : RunRequest) : Prop :=
  Storable request.experiment ∧ Storable request.variant ∧
    (jsonb.apply (TriageStore.verdicts request.guardVerdicts)).isSome

instance (request : RunRequest) : Decidable (Recordable request) :=
  inferInstanceAs (Decidable (_ ∧ _))

/-- What an execution at a place was given: its claim, its run, and what the
    systems answered. -/
def Carries (w : World ι) (request : RunRequest) : Place → Prop
  | .takenIn _ claim => Taken w request claim.claimId
  | .opening run | .recording run => RunFor w request run
  | .appending run | .appended run | .recorded run => RunFor w request run ∧ Recordable request
  | .returned result => ∃ run ∈ w.store.db.committed.triageRuns, RunFor w request run ∧
    (w.systems.idempotencyKeys (statusKey request.runId)).isSome ∧
      result = resultOf run run.status
  | _ => True

/-- Nothing that is recorded anywhere is taken away. -/
structure Kept (w w' : World ι) : Prop where
  created : w.created ⊆ w'.created
  keys : ∀ key row, w.systems.idempotencyKeys key = some row →
    w'.systems.idempotencyKeys key = some row
  runs : w.store.db.committed.triageRuns ⊆ w'.store.db.committed.triageRuns

omit [DecidableEq ι] in
theorem Taken.kept {w w' : World ι} {request : RunRequest} {claimId : Uuid}
    (h : Taken w request claimId) (hkept : Kept w w') : Taken w' request claimId := by
  rcases h with ⟨hcreated, row, hrow, hprint⟩
  exact ⟨hkept.created hcreated, row, hkept.keys _ _ hrow, hprint⟩

omit [DecidableEq ι] in
theorem RunFor.kept {w w' : World ι} {request : RunRequest} {run : TriageRun}
    (h : RunFor w request run) (hkept : Kept w w') : RunFor w' request run :=
  ⟨h.1.kept hkept, h.2⟩

omit [DecidableEq ι] in
/-- What an execution was given stays. -/
theorem Carries.kept {w w' : World ι} {request : RunRequest} {place : Place}
    (h : Carries w request place) (hkept : Kept w w') : Carries w' request place := by
  cases place with
  | takenIn startedAt claim => exact Taken.kept h hkept
  | opening run | recording run => exact RunFor.kept h hkept
  | appending run | appended run | recorded run => exact ⟨h.1.kept hkept, h.2⟩
  | returned result =>
      rcases h with ⟨run, hrun, hfor, hkey, rfl⟩
      rcases Option.isSome_iff_exists.mp hkey with ⟨row, hrow⟩
      exact ⟨run, hkept.runs hrun, hfor.kept hkept,
        Option.isSome_iff_exists.mpr ⟨row, hkept.keys _ _ hrow⟩, rfl⟩
  | unstarted | started | unwinding | raised | crashed => trivial

omit [DecidableEq ι] in
theorem RunFor.runId {w : World ι} {request : RunRequest} {run : TriageRun}
    (h : RunFor w request run) : run.runId = request.runId := by
  rcases h.2 with ⟨_, _, _, _, hrun⟩
  rw [hrun]
  rfl

/-! ### What the systems are asked -/

/-- Handing a claim over finds what its key recorded, or takes the claim in
    under a fresh identifier and records it. -/
theorem done_claim {t after : CoreSim.Tables} {request : RunRequest} {id : Uuid}
    {now keyedAt : Moment} {answer : CoreSim.Answer}
    (h : CoreSim.Done t (claimRequest request) id now keyedAt answer after) :
    (after = t ∧ ∃ row, t.idempotencyKeys (claimKey request.runId) = some row ∧
        CoreSim.replayed row (claimRequest request) = .ok answer) ∨
      ((t.idempotencyKeys (claimKey request.runId) = none ∧ Storable request.policyNumber ∧
        (t.policies request.policyNumber).isSome ∧ t.claims id = none) ∧
        answer = .claim (CoreSim.received (submission request) id now) ∧
        after = (t.apply (.claim (CoreSim.received (submission request) id now))).apply
          (.key (claimKey request.runId)
            (CoreSim.keyRow (claimRequest request) answer keyedAt))) := by
  cases h with
  | replayed hrow hr => exact Or.inl ⟨rfl, _, hrow, hr⟩
  | performed hfree hfinds _ haccepts _ =>
      refine Or.inr ?_
      generalize hcall : (claimRequest request).call = call at hfinds
      cases hfinds with
      | create hstorable hpolicy =>
          cases hcall
          exact ⟨⟨hfree, hstorable, hpolicy, haccepts⟩, rfl, rfl⟩
      | recordStatus | attachDocument | recordParty => cases hcall

/-- A key that recorded an answer in texts a text column takes replays it, and
    only that, to whoever asks the same. -/
theorem replayed_keyRow {request other : CoreSim.Request} {answer recorded : CoreSim.Answer}
    {now : Moment} (hstorable : recorded.Storable)
    (h : CoreSim.replayed (CoreSim.keyRow other recorded now) request = .ok answer) :
    answer = recorded ∧ CoreSim.fingerprint other.call = CoreSim.fingerprint request.call := by
  rcases CoreSim.replayed_eq_ok.mp h with ⟨hprint, hread⟩
  exact ⟨CoreSim.eq_of_validate hstorable hread, hprint⟩

omit [DecidableEq ι] in
/-- Two committed runs with one identifier are one run. -/
theorem eq_of_runId {s : TriageStore.State ι} (h : TriageStore.UniqueInv s) {run other : TriageRun}
    (hrun : run ∈ s.db.committed.triageRuns) (hother : other ∈ s.db.committed.triageRuns)
    (hid : run.runId = other.runId) : run = other :=
  List.inj_on_of_nodup_map h.committed hrun hother hid

/-! ### The invariant -/

/-- Every run has at most one claim and every claim one run, a claim stands
    where its run's keys say, and every committed run is of a claim taken in for
    it. -/
structure SystemsInv (requests : ι → RunRequest) (w : World ι) : Prop where
  runIds : (w.created.map Prod.fst).Nodup
  claimIds : (w.created.map Prod.snd).Nodup
  keyed : ∀ runId, (w.systems.idempotencyKeys (claimKey runId)).isSome →
    runId ∈ w.created.map Prod.fst
  standing : ∀ runId claimId, (runId, claimId) ∈ w.created → Standing w runId claimId
  claims : ∀ claimId, (w.systems.claims claimId).isSome → claimId ∈ w.created.map Prod.snd
  runs : ∀ run ∈ w.store.db.committed.triageRuns, (run.runId, run.claimId) ∈ w.created
  places : ∀ i, Carries w (requests i) (w.place i)

/-- Whatever an execution does, nothing that is recorded is taken away. -/
theorem kept_of_effect {w w' : World ι} {i : ι} (he : Effect requests w i w') : Kept w w' := by
  cases he with
  | move _ => exact ⟨fun _ h => h, fun _ _ h => h, fun _ h => h⟩
  | crash _ _ => exact ⟨fun _ h => h, fun _ _ h => h, fun _ h => h⟩
  | taken _ hcall _ =>
      rcases CoreSim.idempotent_eq_ok.mp hcall with ⟨_, hdone⟩
      refine ⟨?_, fun key row hrow => hdone.kept hrow, fun _ h => h⟩
      simp only [World.taken]
      split
      · exact List.subset_append_left _ _
      · exact List.Subset.refl _
  | told _ hcall _ =>
      rcases CoreSim.idempotent_eq_ok.mp hcall with ⟨_, hdone⟩
      exact ⟨fun _ h => h, fun key row hrow => hdone.kept hrow, fun _ h => h⟩
  | sent _ he _ | sentFailed _ he _ | commitLost _ he | statementFails _ he | rollback _ he
  | crashOpen _ he => exact ⟨fun _ h => h, fun _ _ h => h, he.grown.subset⟩

omit [DecidableEq ι] in
/-- A claim stands where it stood, if its keys and its row are as they were. -/
theorem Standing.frame {w w' : World ι} {runId claimId : Uuid} (h : Standing w runId claimId)
    (hclaimKey : w'.systems.idempotencyKeys (claimKey runId) =
      w.systems.idempotencyKeys (claimKey runId))
    (hstatusKey : w'.systems.idempotencyKeys (statusKey runId) =
      w.systems.idempotencyKeys (statusKey runId))
    (hclaim : w'.systems.claims claimId = w.systems.claims claimId)
    (hruns : w.store.db.committed.triageRuns ⊆ w'.store.db.committed.triageRuns) :
    Standing w' runId claimId := by
  rcases h with ⟨submission, receivedAt, keyedAt, hstorable, hkey, hrow⟩
  refine ⟨submission, receivedAt, keyedAt, hstorable, hclaimKey.trans hkey, ?_⟩
  rw [hstatusKey, hclaim]
  rcases hrow with hreceived | ⟨run, hrun, hmoved⟩
  · exact Or.inl hreceived
  · exact Or.inr ⟨run, hruns hrun, hmoved⟩

/-- Carrying over what the executions were given. -/
theorem SystemsInv.carry {w w' : World ι} {i : ι} (h : SystemsInv requests w)
    (he : Effect requests w i w') (hplace : Carries w' (requests i) (w'.place i)) (j : ι) :
    Carries w' (requests j) (w'.place j) := by
  by_cases hji : j = i
  · subst hji
    exact hplace
  · rw [he.place hji]
    exact (h.places j).kept (kept_of_effect he)

/-- An execution that changes neither the systems nor what is committed. -/
theorem SystemsInv.still {w w' : World ι} {i : ι} (h : SystemsInv requests w)
    (he : Effect requests w i w') (hsystems : w'.systems = w.systems)
    (hcreated : w'.created = w.created)
    (hruns : w'.store.db.committed.triageRuns = w.store.db.committed.triageRuns)
    (hplace : Carries w' (requests i) (w'.place i)) : SystemsInv requests w' := by
  refine ⟨?_, ?_, ?_, ?_, ?_, ?_, h.carry he hplace⟩
  · rw [hcreated]
    exact h.runIds
  · rw [hcreated]
    exact h.claimIds
  · rw [hcreated, hsystems]
    exact h.keyed
  · intro runId claimId hmem
    rw [hcreated] at hmem
    refine (h.standing runId claimId hmem).frame ?_ ?_ ?_ (kept_of_effect he).runs <;> rw [hsystems]
  · rw [hcreated, hsystems]
    exact h.claims
  · rw [hcreated, hruns]
    exact h.runs

/-- One more claim is taken in, for a run that had none, under an identifier no
    claim had. -/
theorem SystemsInv.create {w w' : World ι} {i : ι} (h : SystemsInv requests w)
    (hevidence : EvidenceInv w) (he : Effect requests w i w') {request : RunRequest} {id : Uuid}
    (now keyedAt : Moment) (hstorable : Storable request.policyNumber)
    (hfree : w.systems.idempotencyKeys (claimKey request.runId) = none)
    (hnew : w.systems.claims id = none)
    (hcreated : w'.created = w.created ++ [(request.runId, id)])
    (hkeys : w'.systems.idempotencyKeys = Function.update w.systems.idempotencyKeys
      (claimKey request.runId) (some (CoreSim.keyRow (claimRequest request)
        (.claim (CoreSim.received (submission request) id now)) keyedAt)))
    (hclaims : w'.systems.claims = Function.update w.systems.claims id
      (some (CoreSim.received (submission request) id now)))
    (hstore : w'.store = w.store)
    (hplace : Carries w' (requests i) (w'.place i)) : SystemsInv requests w' := by
  have hstatus : ∀ runId, w'.systems.idempotencyKeys (statusKey runId) =
      w.systems.idempotencyKeys (statusKey runId) := by
    intro runId
    rw [hkeys, Function.update_of_ne (claimKey_ne_statusKey _ _).symm]
  have hrunNew : request.runId ∉ w.created.map Prod.fst := by
    intro hmem
    rcases List.mem_map.mp hmem with ⟨⟨runId, claimId⟩, hpair, hid⟩
    rcases h.standing runId claimId hpair with ⟨_, _, _, _, hkey, _⟩
    simp only at hid
    rw [hid, hfree] at hkey
    cases hkey
  have hclaimNew : id ∉ w.created.map Prod.snd := by
    intro hmem
    rcases List.mem_map.mp hmem with ⟨⟨runId, claimId⟩, hpair, hid⟩
    simp only at hid
    rcases h.standing runId claimId hpair with ⟨_, _, _, _, _, ⟨_, hrow⟩ | ⟨_, _, _, _, _, hrow⟩⟩
    · rw [hid, hnew] at hrow
      cases hrow
    · rw [hid, hnew] at hrow
      cases hrow
  have hruns : w'.store.db.committed.triageRuns = w.store.db.committed.triageRuns := by
    rw [hstore]
  refine ⟨?_, ?_, ?_, ?_, ?_, ?_, h.carry he hplace⟩
  · rw [hcreated, List.map_append, List.map_singleton, ← List.concat_eq_append]
    exact h.runIds.concat hrunNew
  · rw [hcreated, List.map_append, List.map_singleton, ← List.concat_eq_append]
    exact h.claimIds.concat hclaimNew
  · intro runId hsome
    rw [hcreated, List.map_append]
    by_cases hid : runId = request.runId
    · exact List.mem_append_right _ (List.mem_singleton.mpr hid)
    · rw [hkeys, Function.update_of_ne fun heq => hid (claimKey_inj heq)] at hsome
      exact List.mem_append_left _ (h.keyed runId hsome)
  · intro runId claimId hmem
    rw [hcreated] at hmem
    rcases List.mem_append.mp hmem with hmem | hmem
    · -- A claim that was there has another identifier, and its run another key.
      have hclaim : claimId ≠ id := fun heq => hclaimNew (heq ▸ List.mem_map_of_mem hmem)
      have hrun : runId ≠ request.runId := fun heq => hrunNew (heq ▸ List.mem_map_of_mem hmem)
      refine (h.standing runId claimId hmem).frame ?_ (hstatus runId) ?_ (kept_of_effect he).runs
      · rw [hkeys, Function.update_of_ne fun heq => hrun (claimKey_inj heq)]
      · rw [hclaims, Function.update_of_ne hclaim]
    · cases List.mem_singleton.mp hmem
      refine ⟨submission request, now, keyedAt, hstorable, ?_, Or.inl ⟨?_, ?_⟩⟩
      · rw [hkeys, Function.update_self]
        rfl
      · -- The systems are told of a run only once a claim was taken in for it.
        rw [hstatus]
        cases hrow : w.systems.idempotencyKeys (statusKey request.runId) with
        | none => rfl
        | some row =>
            rcases hevidence.told _ row hrow with ⟨run, hrun, hid, _⟩
            exact absurd (hid ▸ List.mem_map_of_mem (h.runs run hrun)) hrunNew
      · rw [hclaims, Function.update_self]
  · intro claimId hsome
    rw [hcreated, List.map_append]
    by_cases hid : claimId = id
    · exact List.mem_append_right _ (List.mem_singleton.mpr hid)
    · rw [hclaims, Function.update_of_ne hid] at hsome
      exact List.mem_append_left _ (h.claims claimId hsome)
  · intro run hrun
    rw [hruns] at hrun
    rw [hcreated]
    exact List.mem_append_left _ (h.runs run hrun)

/-- A claim handed over: what its key recorded is answered again, or one more
    claim is taken in. -/
theorem SystemsInv.taken {w : World ι} (h : SystemsInv requests w) (hevidence : EvidenceInv w)
    {i : ι} {startedAt : Moment} {id : Uuid} {now keyedAt : Moment} {claim : Claim}
    {systems : CoreSim.Tables} {place : Place} (hs : w.place i = .started startedAt)
    (hcall : CoreSim.idempotent w.systems (claimRequest (requests i)) id now keyedAt =
      .ok (.claim claim, systems))
    (hplace : place = .takenIn startedAt claim ∨ place = .raised .unavailable) :
    SystemsInv requests (w.taken i (requests i) claim systems place) := by
  have he : Effect requests w i (w.taken i (requests i) claim systems place) :=
    .taken hs hcall hplace
  -- Where the execution goes, it was given the claim.
  have hcarries : Taken (w.taken i (requests i) claim systems place) (requests i) claim.claimId →
      Carries (w.taken i (requests i) claim systems place) (requests i)
        ((w.taken i (requests i) claim systems place).place i) := by
    intro htaken
    simp only [World.taken, Function.update_self]
    rcases hplace with rfl | rfl
    · exact htaken
    · trivial
  rcases CoreSim.idempotent_eq_ok.mp hcall with ⟨_, hdone⟩
  rcases done_claim hdone with ⟨rfl, row, hrow, hr⟩ | ⟨⟨hfree, hstorable, _, hnew⟩, hanswer, rfl⟩
  · have hkeyed : (w.systems.idempotencyKeys (claimKey (requests i).runId)).isSome := by
      rw [hrow]
      rfl
    have hcreated : (w.taken i (requests i) claim w.systems place).created = w.created := by
      simp only [World.taken, hrow, Option.isNone_some, Bool.false_eq_true, if_false]
    rcases List.mem_map.mp (h.keyed _ hkeyed) with ⟨⟨runId, claimId⟩, hmem, hid⟩
    simp only at hid
    subst hid
    refine h.still he rfl hcreated rfl (hcarries ?_)
    rcases h.standing _ _ hmem with ⟨before, receivedAt, _, hstorable, hkey, _⟩
    rw [hrow, Option.some.injEq] at hkey
    subst hkey
    have hstored : (CoreSim.Answer.claim (CoreSim.received before claimId receivedAt)).Storable :=
      hstorable
    rcases replayed_keyRow hstored hr with ⟨hanswer, hprint⟩
    cases hanswer
    exact ⟨hcreated ▸ hmem, _, hrow, hprint⟩
  · cases hanswer
    refine h.create hevidence he now keyedAt hstorable hfree hnew ?_ ?_ ?_ rfl
      (hcarries ⟨?_, ?_⟩)
    · simp only [World.taken, hfree, Option.isNone_none, if_true]
      rfl
    · simp only [World.taken, CoreSim.idempotencyKeys_apply_key]
      rfl
    · simp only [World.taken, CoreSim.Tables.apply]
      rfl
    · simp only [World.taken, hfree, Option.isNone_none, if_true]
      exact List.mem_append_right _ (List.mem_singleton_self _)
    · simp only [World.taken, CoreSim.idempotencyKeys_apply_key]
      exact ⟨_, Function.update_self _ _ _, rfl⟩

/-- The claim of a committed run moves, once. -/
theorem SystemsInv.moves {w w' : World ι} {i : ι} (h : SystemsInv requests w)
    (he : Effect requests w i w') {run : TriageRun} {before : Claim} (row : CoreSim.KeyRow)
    (now : Moment) (hrun : run ∈ w.store.db.committed.triageRuns)
    (hfree : w.systems.idempotencyKeys (statusKey run.runId) = none)
    (hbefore : w.systems.claims run.claimId = some before)
    (hcreated : w'.created = w.created)
    (hkeys : w'.systems.idempotencyKeys =
      Function.update w.systems.idempotencyKeys (statusKey run.runId) (some row))
    (hclaims : w'.systems.claims =
      Function.update w.systems.claims run.claimId (some (moved before run.status now)))
    (hstore : w'.store = w.store)
    (hplace : Carries w' (requests i) (w'.place i)) : SystemsInv requests w' := by
  have hmem := h.runs run hrun
  have hclaimKey : ∀ runId, w'.systems.idempotencyKeys (claimKey runId) =
      w.systems.idempotencyKeys (claimKey runId) := by
    intro runId
    rw [hkeys, Function.update_of_ne (claimKey_ne_statusKey _ _)]
  refine ⟨?_, ?_, ?_, ?_, ?_, ?_, h.carry he hplace⟩
  · rw [hcreated]
    exact h.runIds
  · rw [hcreated]
    exact h.claimIds
  · intro runId hsome
    rw [hcreated]
    rw [hclaimKey] at hsome
    exact h.keyed runId hsome
  · intro runId claimId hpair
    rw [hcreated] at hpair
    by_cases hid : runId = run.runId
    · have hclaim : claimId = run.claimId := by
        rw [hid] at hpair
        exact congrArg Prod.snd (List.inj_on_of_nodup_map h.runIds hpair hmem rfl)
      rw [hid, hclaim]
      rcases h.standing _ _ hmem with ⟨submission, receivedAt, keyedAt, hstorable, hkey,
        ⟨_, hreceived⟩ | ⟨_, _, _, hsome, _⟩⟩
      · rw [hbefore, Option.some.injEq] at hreceived
        refine ⟨submission, receivedAt, keyedAt, hstorable, ?_,
          Or.inr ⟨run, hstore ▸ hrun, rfl, ?_, now, ?_⟩⟩
        · rw [hclaimKey, hkey]
        · rw [hkeys, Function.update_self]
          rfl
        · rw [hclaims, Function.update_self, hreceived]
      · rw [hfree] at hsome
        cases hsome
    · -- Another run's claim is another claim.
      have hclaim : claimId ≠ run.claimId := by
        intro heq
        rw [heq] at hpair
        exact hid (congrArg Prod.fst (List.inj_on_of_nodup_map h.claimIds hpair hmem rfl))
      refine (h.standing runId claimId hpair).frame (hclaimKey runId) ?_ ?_ (kept_of_effect he).runs
      · rw [hkeys, Function.update_of_ne fun heq => hid (statusKey_inj heq)]
      · rw [hclaims, Function.update_of_ne hclaim]
  · intro claimId hsome
    rw [hcreated]
    by_cases hid : claimId = run.claimId
    · exact hid ▸ List.mem_map_of_mem hmem
    · rw [hclaims, Function.update_of_ne hid] at hsome
      exact h.claims claimId hsome
  · intro other hother
    rw [hstore] at hother
    rw [hcreated]
    exact h.runs other hother

/-- The systems told of a run: what its key recorded is answered again, or the
    run's claim moves. -/
theorem SystemsInv.told {w : World ι} (h : SystemsInv requests w) (hevidence : EvidenceInv w)
    (hunique : TriageStore.UniqueInv w.store) {i : ι} {run : TriageRun} {now keyedAt : Moment}
    {claim : Claim} {systems : CoreSim.Tables} {place : Place} (hs : w.place i = .recorded run)
    (hcall : CoreSim.idempotent w.systems (statusRequest run) run.claimId now keyedAt =
      .ok (.claim claim, systems))
    (hplace : place = .returned (resultOf run claim.status) ∨ place = .raised .unavailable) :
    SystemsInv requests (w.told i systems place) := by
  have he : Effect requests w i (w.told i systems place) := .told hs hcall hplace
  have hcommitted := hevidence.place i
  have hfor := h.places i
  rw [hs] at hcommitted hfor
  -- Where the execution goes, the systems have answered with the run's status.
  have hcarries : claim.status = run.status →
      (systems.idempotencyKeys (statusKey run.runId)).isSome →
      Carries (w.told i systems place) (requests i) ((w.told i systems place).place i) := by
    intro hstatus hkey
    simp only [World.told, Function.update_self]
    rcases hplace with rfl | rfl
    · rw [hfor.1.runId] at hkey
      exact ⟨run, hcommitted.2.2, hfor.1.kept (kept_of_effect he), hkey, hstatus ▸ rfl⟩
    · trivial
  rcases CoreSim.idempotent_eq_ok.mp hcall with ⟨_, hdone⟩
  rcases done_status hdone with ⟨rfl, row, hrow, hr⟩ | ⟨before, hbefore, hfree, hanswer, rfl⟩
  · rcases hevidence.told _ row hrow with ⟨other, hother, hid, told, _, rfl, _, hstatus, hstorable⟩
    have hsame : other = run := eq_of_runId hunique hother hcommitted.2.2 hid
    rw [hsame] at hr hstatus
    have hstored : (CoreSim.Answer.claim told).Storable := hstorable
    cases (replayed_keyRow hstored hr).1
    refine h.still he rfl rfl rfl (hcarries hstatus ?_)
    rw [hrow]
    rfl
  · cases hanswer
    refine h.moves he (CoreSim.keyRow (statusRequest run)
      (.claim (CoreSim.transitioned (CoreSim.stored before) run.status now)) keyedAt) now
        hcommitted.2.2 hfree hbefore rfl ?_ ?_ rfl (hcarries rfl ?_)
    · simp only [World.told, CoreSim.idempotencyKeys_apply_key]
      rfl
    · simp only [World.told, CoreSim.Tables.apply, hbefore, Option.map_some]
      rfl
    · rw [CoreSim.idempotencyKeys_apply_key, Function.update_self]
      rfl

omit [DecidableEq ι] in
/-- A run that the store takes is one that the columns take what its request
    gives it of. -/
theorem RunFor.recordable {w : World ι} {request : RunRequest} {run : TriageRun}
    {t : TriageStore.Tables} (h : RunFor w request run) (htexts : TriageStore.RunTexts run)
    (haccepts : t.AcceptsRun run) : Recordable request := by
  rcases h.2 with ⟨_, _, _, _, hrun⟩
  rw [hrun] at htexts haccepts
  exact ⟨htexts.1, htexts.2.1, haccepts.2⟩

/-- What an execution was given it still has after a statement that did not
    fail. -/
theorem Carries.sent {w : World ι} {request : RunRequest} {s s' : TriageStore.State ι} {i : ι}
    {place next : Place} (h : Carries w request place) (hsent : Sent s i place next s') :
    Carries w request next := by
  cases hsent with
  | connect => exact h
  | recordRun htexts haccepts => exact ⟨h, RunFor.recordable h htexts haccepts⟩
  | lockChain => exact h
  | readLast _ => exact h
  | insertEntry _ => exact h
  | commit => exact h

/-- The store after a statement that commits nothing but a run with its
    entry. -/
theorem SystemsInv.sent {w : World ι} (h : SystemsInv requests w) (hevidence : EvidenceInv w)
    {i : ι} {a : TriageStore.Statement} {store : TriageStore.State ι} {place : Place}
    (he : Effect requests w i (w.sent i store place))
    (hstore : TriageStore.Effect w.store i a store)
    (hcommit : a = .commit → ∃ run, w.place i = .appended run)
    (hplace : Carries (w.sent i store place) (requests i) place) :
    SystemsInv requests (w.sent i store place) := by
  have hcarries : Carries (w.sent i store place) (requests i) ((w.sent i store place).place i) := by
    simp only [World.sent, Function.update_self]
    exact hplace
  rcases hstore.frame.2 with hsame | ⟨ha, _, rfl⟩
  · exact h.still he rfl rfl (by simp only [World.sent, hsame]) hcarries
  · -- What is committed is a run of a claim that was taken in for it.
    rcases hcommit ha with ⟨run, hrun⟩
    have hi := hevidence.place i
    have hfor := h.places i
    rw [hrun] at hi hfor
    rcases view_appended hi with ⟨_, _, hruns, _⟩
    refine ⟨h.runIds, h.claimIds, h.keyed, ?_, h.claims, ?_, h.carry he hcarries⟩
    · intro runId claimId hmem
      exact (h.standing runId claimId hmem).frame rfl rfl rfl (kept_of_effect he).runs
    · intro other hother
      simp only [World.sent, TriageStore.State.commit, Database.committed_commit] at hother
      rw [← TriageStore.State.view, hruns] at hother
      rcases List.mem_append.mp hother with hother | hother
      · exact h.runs other hother
      · rw [List.mem_singleton.mp hother, hfor.1.runId]
        exact hfor.1.1.1

/-- Every step keeps what the systems hold in order. -/
theorem SystemsInv.effect {w w' : World ι} {i : ι} (h : SystemsInv requests w)
    (hevidence : EvidenceInv w) (hunique : TriageStore.UniqueInv w.store)
    (he : Effect requests w i w') : SystemsInv requests w' := by
  have hi := h.places i
  have hkept := kept_of_effect he
  cases he with
  | @move place hmoves =>
      refine h.still (.move hmoves) rfl rfl rfl ?_
      simp only [World.goto, Function.update_self]
      generalize w.place i = before at hi hmoves
      cases hmoves with
      | start => trivial
      | decide => exact ⟨hi.kept hkept, _, _, _, _, rfl⟩
      | fail => trivial
  | taken hs hcall hplace => exact h.taken hevidence hs hcall hplace
  | told hs hcall hplace => exact h.told hevidence hunique hs hcall hplace
  | sent hsends he hfine =>
      refine h.sent hevidence (.sent hsends he hfine) he ?_ ?_
      · rintro rfl
        exact appended_of_commit hsends
      · have hsent := sent_of_effect (hevidence.place i) hsends he hfine
        generalize w.place i = before at hi hsent
        refine Carries.sent ?_ hsent
        exact hi.kept hkept
  | sentFailed hsends he hfailed =>
      refine h.sent hevidence (.sentFailed hsends he hfailed) he ?_ trivial
      rintro rfl
      exact appended_of_commit hsends
  | commitLost hs he =>
      exact h.sent hevidence (.commitLost hs he) he (fun _ => ⟨_, hs⟩) trivial
  | statementFails hinside he =>
      exact h.sent hevidence (.statementFails hinside he) he nofun trivial
  | rollback hs he => exact h.sent hevidence (.rollback hs he) he nofun trivial
  | crashOpen hover he => exact h.sent hevidence (.crashOpen hover he) he nofun trivial
  | crash hover hclosed =>
      refine h.still (.crash hover hclosed) rfl rfl rfl ?_
      simp only [World.goto, Function.update_self]
      trivial

/-- What the systems hold is in order wherever the executions get to. -/
theorem systems_of_reachable {policies : Str → Option Policy} {w : World ι}
    (h : (machine requests policies).Reachable w) : SystemsInv requests w := by
  have hboth : (machine requests policies).Reachable w ∧ SystemsInv requests w := by
    refine h.induct (P := fun w => (machine requests policies).Reachable w ∧
      SystemsInv requests w) ?_ ?_
    · intro w hw
      refine ⟨Machine.reachable_init hw, ?_⟩
      cases hw
      exact ⟨List.nodup_nil, List.nodup_nil, nofun, nofun, nofun, nofun, fun _ => trivial⟩
    · rintro w ⟨i, a⟩ w' ⟨hw, hsystems⟩ hstep
      exact ⟨hw.step hstep, hsystems.effect (evidence_of_reachable hw) (store_of_reachable hw).2
        (effect_of_machine hstep)⟩
  exact hboth.2

/-! ### Closed runs -/

/-- A run is closed with a result: it was recorded once, with one entry about
    it, one claim was taken in for it, and that claim moved once, to the status
    that was recorded. -/
structure Closed (w : World ι) (request : RunRequest) (result : RunResult) : Prop where
  recorded : ∃ run entry,
    w.store.db.committed.triageRuns.filter (fun r => r.runId = request.runId) = [run] ∧
    w.store.db.committed.auditLog.filter (fun e => e.runId = request.runId) = [entry] ∧
    Agrees run entry ∧ result = resultOf run run.status ∧
    ∃ status trace startedAt completedAt,
      run = runOf request result.claimId status trace startedAt completedAt
  created : w.created.filter (fun c => c.1 = request.runId) = [(request.runId, result.claimId)]
  claim : ∃ submission receivedAt toldAt,
    CoreSim.fingerprint (.create submission) = CoreSim.fingerprint (claimRequest request).call ∧
    w.systems.claims result.claimId =
      some (moved (CoreSim.received submission result.claimId receivedAt) result.status toldAt)

/-- Where nothing is there twice, what is there under a name is there alone. -/
theorem filter_of_nodup {α β : Type} [DecidableEq β] {f : α → β} {l : List α}
    (h : (l.map f).Nodup) {a : α} (ha : a ∈ l) : l.filter (fun x => f x = f a) = [a] := by
  induction l with
  | nil => cases ha
  | cons b l ih =>
      rw [List.map_cons, List.nodup_cons] at h
      by_cases hb : f b = f a
      · have hrest : l.filter (fun x => f x = f a) = [] := by
          refine List.filter_eq_nil_iff.mpr fun x hx hxa => h.1 ?_
          rw [hb, ← of_decide_eq_true hxa]
          exact List.mem_map_of_mem hx
        have hsame : b = a := by
          rcases List.mem_cons.mp ha with rfl | hmem
          · rfl
          · exact absurd (hb ▸ List.mem_map_of_mem hmem) h.1
        rw [hsame]
        simp only [List.filter_cons, decide_true, if_true, hrest]
      · have hmem : a ∈ l := by
          rcases List.mem_cons.mp ha with rfl | hmem
          · exact absurd rfl hb
          · exact hmem
        simp only [List.filter_cons, hb, decide_false, Bool.false_eq_true, if_false]
        exact ih h.2 hmem

/-- Runs and the entries about them go by the same identifiers. -/
theorem map_runId {runs : List TriageRun} {entries : List Audit.AuditEntry}
    (h : List.Forall₂ Agrees runs entries) : entries.map (·.runId) = runs.map (·.runId) := by
  induction h with
  | nil => rfl
  | cons hagrees _ ih => rw [List.map_cons, List.map_cons, hagrees.runId, ih]

/-- Wherever any number of executions get to: an execution that returned has
    closed its run, whatever became of the others that tried it. -/
theorem closed_of_returned {policies : Str → Option Policy} {w : World ι}
    (h : (machine requests policies).Reachable w) {i : ι} {result : RunResult}
    (hreturned : w.place i = .returned result) : Closed w (requests i) result := by
  have hsystems := systems_of_reachable h
  have hunique := (store_of_reachable h).2
  have hpaired := (evidence_of_reachable h).paired
  have hi := hsystems.places i
  rw [hreturned] at hi
  rcases hi with ⟨run, hrun, hfor, hkey, rfl⟩
  rcases exists_entry hpaired hrun with ⟨entry, hentry, hagrees⟩
  have hentries : (w.store.db.committed.auditLog.map (·.runId)).Nodup := by
    rw [map_runId hpaired]
    exact hunique.committed
  refine ⟨⟨run, entry, ?_, ?_, hagrees, rfl, hfor.2⟩, ?_, ?_⟩
  · rw [← hfor.runId]
    exact filter_of_nodup hunique.committed hrun
  · rw [← hfor.runId, ← hagrees.runId]
    exact filter_of_nodup hentries hentry
  · exact filter_of_nodup (f := Prod.fst) hsystems.runIds hfor.1.1
  · rcases hfor.1 with ⟨hmem, row, hrow, hprint⟩
    rcases hsystems.standing _ _ hmem with ⟨submission, receivedAt, _, _, hclaimKey,
      ⟨hnone, _⟩ | ⟨other, hother, hid, _, toldAt, hmoved⟩⟩
    · rw [hnone] at hkey
      cases hkey
    · -- The run that moved the claim is the one that was recorded.
      have hsame : other = run := eq_of_runId hunique hother hrun (hid.trans hfor.runId.symm)
      rw [hsame] at hmoved
      rw [hrow, Option.some.injEq] at hclaimKey
      subst hclaimKey
      exact ⟨submission, receivedAt, toldAt, hprint, hmoved⟩

end Runs

end Pipeline

end ClaimTriage
