import ClaimTriage.Triage.Standing

/-!
# Retries

What one more try of a run comes to when everything is reachable.

The two calls to the systems are made once per key, so making them again is
answered with what they did. The transaction in the middle is not: it inserts
the run, and a run that an earlier try committed fails it. So a try closes its
run exactly if none has committed it yet, and one that committed it and could
not tell the systems is never made up for.

## Main definitions

* `Action.Clean`: Nothing fails, is lost or stops.
* `Takes`: The systems take a claim in, or did so for the same submission.
* `Meets`: What an attempt has to find for its next action to succeed.

## Theorems

* `fine_iff_of_step`: A clean action succeeds exactly where it finds that.
* `exists_attempt`: A try with nobody in its way comes to its end.
* `closes_iff_of_run`: A try with no failure closes its run exactly if each of
  its actions finds what it has to.
-/

namespace ClaimTriage

open Theory Text Calendar

namespace Pipeline

/-- Everything is reachable: nothing fails, no answer is lost, the graph ends
    with a status, and the execution does not stop. -/
def Action.Clean : Action → Prop
  | takeIn answered _ _ _ | emit answered _ _ => answered = true
  | decide final _ _ => (ClaimStatus.codec.decode final).isSome
  | commitLost | statementFails _ | fail _ | crash => False
  | start _ | connect | recordRun | lockChain | readLast | insertEntry | commit | rollback => True

instance (action : Action) : Decidable action.Clean := by
  cases action <;> simp only [Action.Clean] <;> infer_instance

/-- A claim that the action has taken in goes by an identifier. -/
def Action.Under (id : Uuid) : Action → Prop
  | takeIn _ other _ _ => other = id
  | _ => True

instance (id : Uuid) (action : Action) : Decidable (action.Under id) := by
  cases action <;> simp only [Action.Under] <;> infer_instance

/-- The execution has not failed. -/
def Place.Fine : Place → Prop
  | unwinding _ | raised _ | crashed => False
  | _ => True

/-- The systems take a request's claim in under a fresh identifier, or have
    taken one in under its key for what they do not tell from it. -/
def Takes (t : CoreSim.Tables) (request : RunRequest) (id : Uuid) : Prop :=
  match t.idempotencyKeys (claimKey request.runId) with
  | some row => row.fingerprint = CoreSim.fingerprint (claimRequest request).call
  | none => Storable request.policyNumber ∧ (t.policies request.policyNumber).isSome ∧
    t.claims id = none

section Runs

variable {ι : Type} [DecidableEq ι] {requests : ι → RunRequest}

/-- What an execution has to find for its next action to succeed: the systems
    take its claim, the store takes its run, which nobody has committed, and the
    log has a place for its entry. -/
def Meets (requests : ι → RunRequest) (i : ι) (w : World ι) (act : ι × Action) : Prop :=
  act.1 = i →
    match act.2 with
    | .takeIn _ id _ _ => Takes w.systems (requests i) id
    | .recordRun => Recordable (requests i) ∧
      ∀ run ∈ w.store.db.committed.triageRuns, run.runId ≠ (requests i).runId
    | .insertEntry => w.store.db.committed.auditLog.length < 2147483647
    | _ => True

/-! ### What the systems answer -/

/-- A key that recorded an answer in texts a text column takes replays it to
    whoever asks the same. -/
theorem replayed_keyRow_of_fingerprint {request other : CoreSim.Request}
    {recorded : CoreSim.Answer} {now : Moment} (hstorable : recorded.Storable)
    (hanswers : request.call.Answers recorded)
    (hprint : CoreSim.fingerprint other.call = CoreSim.fingerprint request.call) :
    CoreSim.replayed (CoreSim.keyRow other recorded now) request = .ok recorded := by
  refine CoreSim.replayed_eq_ok.mpr ⟨hprint, ?_⟩
  rcases CoreSim.reads_modelDump hstorable with ⟨kept, hkept, _, hvalidate⟩
  exact Option.bind_eq_some_iff.mpr ⟨kept, hkept, hvalidate _ hanswers⟩

/-- A call under a key that nobody used answers with what it writes, where its
    write is not refused. -/
theorem idempotent_of_finds {t : CoreSim.Tables} (request : CoreSim.Request) {draft : CoreSim.Draft}
    {id : Uuid} {now keyedAt : Moment} (hkey : Storable request.key)
    (hfree : t.idempotencyKeys request.key = none) (hfinds : CoreSim.Finds t request.call draft)
    (hstorable : (draft.write id now).1.Storable) (haccepts : t.Accepts (draft.write id now).1)
    (hanswer : (draft.write id now).2.Storable) :
    ∃ after, CoreSim.idempotent t request id now keyedAt = .ok ((draft.write id now).2, after) := by
  rcases CoreSim.reads_modelDump hanswer with ⟨kept, hkept, _⟩
  have hrow : (CoreSim.Write.key request.key
      (CoreSim.keyRow request (draft.write id now).2 keyedAt)).Storable :=
    ⟨hkey, Option.isSome_iff_exists.mpr ⟨kept, hkept⟩⟩
  exact ⟨_, CoreSim.idempotent_eq_ok.mpr
    ⟨hkey, .performed hfree hfinds hstorable haccepts hrow⟩⟩

omit [DecidableEq ι] in
/-- The systems answer with a claim exactly if they take the request's. -/
theorem idempotent_claim_iff {w : World ι} (h : SystemsInv requests w) {request : RunRequest}
    {id : Uuid} {now keyedAt : Moment} :
    (∃ claim systems, CoreSim.idempotent w.systems (claimRequest request) id now keyedAt =
      .ok (.claim claim, systems)) ↔ Takes w.systems request id := by
  unfold Takes
  cases hkey : w.systems.idempotencyKeys (claimKey request.runId) with
  | none =>
      constructor
      · rintro ⟨claim, systems, hcall⟩
        rcases CoreSim.idempotent_eq_ok.mp hcall with ⟨_, hdone⟩
        rcases done_claim hdone with ⟨_, row, hrow, _⟩ | ⟨⟨_, htakes⟩, _⟩
        · rw [hkey] at hrow
          cases hrow
        · exact htakes
      · rintro ⟨hstorable, hpolicy, hnew⟩
        have hfinds : CoreSim.Finds w.systems (claimRequest request).call
            (.claim (submission request)) := .create hstorable hpolicy
        rcases idempotent_of_finds (claimRequest request) (storable_claimKey request.runId) hkey
          hfinds hstorable hnew hstorable with ⟨after, hcall⟩
        exact ⟨_, after, hcall⟩
  | some row =>
      have hsome : (w.systems.idempotencyKeys (claimKey request.runId)).isSome := by
        rw [hkey]
        rfl
      rcases List.mem_map.mp (h.keyed _ hsome) with ⟨⟨runId, claimId⟩, hmem, hid⟩
      simp only at hid
      rw [hid] at hmem
      rcases h.standing _ _ hmem with ⟨before, receivedAt, firstAt, hstorable, hrow, _⟩
      rw [hkey, Option.some.injEq] at hrow
      have hstored : (CoreSim.Answer.claim (CoreSim.received before claimId receivedAt)).Storable :=
        hstorable
      constructor
      · rintro ⟨claim, systems, hcall⟩
        rcases CoreSim.idempotent_eq_ok.mp hcall with ⟨_, hdone⟩
        rcases done_claim hdone with ⟨_, other, hother, hr⟩ | ⟨⟨hfree, _⟩, _⟩
        · rw [hkey, Option.some.injEq] at hother
          subst hother
          exact (CoreSim.replayed_eq_ok.mp hr).1
        · rw [hkey] at hfree
          cases hfree
      · intro hprint
        refine ⟨CoreSim.received before claimId receivedAt, w.systems,
          CoreSim.idempotent_eq_ok.mpr ⟨storable_claimKey _, .replayed hkey ?_⟩⟩
        rw [hrow] at hprint ⊢
        exact replayed_keyRow_of_fingerprint hstored trivial hprint

omit [DecidableEq ι] in
/-- Told of a committed run, the systems answer with a claim. -/
theorem told_of_committed {w : World ι} (h : SystemsInv requests w) (hevidence : EvidenceInv w)
    (hunique : TriageStore.UniqueInv w.store) {run : TriageRun}
    (hrun : run ∈ w.store.db.committed.triageRuns) (now keyedAt : Moment) :
    ∃ claim systems, CoreSim.idempotent w.systems (statusRequest run) run.claimId now keyedAt =
      .ok (.claim claim, systems) := by
  cases hkey : w.systems.idempotencyKeys (statusKey run.runId) with
  | none =>
      -- The claim was taken in, so it is there.
      have hclaim : ∃ row, w.systems.claims run.claimId = some row := by
        rcases h.standing _ _ (h.runs run hrun) with
          ⟨_, _, _, _, _, ⟨_, hrow⟩ | ⟨_, _, _, _, _, hrow⟩⟩
        · exact ⟨_, hrow⟩
        · exact ⟨_, hrow⟩
      rcases hclaim with ⟨row, hrow⟩
      have hfinds : CoreSim.Finds w.systems (statusRequest run).call
          (.transition run.claimId (CoreSim.stored row) run.status) := .recordStatus hrow
      have hstorable : Storable row.policyNumber := (hevidence.rows _ _ hrow).2
      rcases idempotent_of_finds (statusRequest run) (storable_statusKey run.runId) hkey hfinds
        trivial trivial hstorable with ⟨after, hcall⟩
      exact ⟨_, after, hcall⟩
  | some row =>
      rcases hevidence.told _ row hkey with ⟨other, hother, hid, told, _, hrow, _, _, hstorable⟩
      have hsame : other = run := eq_of_runId hunique hother hrun hid
      rw [hsame] at hrow
      have hstored : (CoreSim.Answer.claim told).Storable := hstorable
      refine ⟨told, w.systems, CoreSim.idempotent_eq_ok.mpr ⟨storable_statusKey _,
        .replayed hkey ?_⟩⟩
      rw [hrow]
      exact replayed_keyRow_of_fingerprint hstored trivial rfl

/-! ### What the store takes -/

theorem storable_traceText (trace : Option (Fin (2 ^ 128))) : Storable (traceText trace) := by
  cases trace with
  | none => decide
  | some traceId =>
      exact storable_of_printable (Numeral.printable_fixed (by decide) (by decide) 32 traceId)

omit [DecidableEq ι] in
/-- The store takes the run of a request exactly if the columns take what the
    request gives it, and nobody has committed the run. -/
theorem accepts_run_iff {w : World ι} {request : RunRequest} {run : TriageRun}
    {t : TriageStore.Tables} (h : RunFor w request run) :
    TriageStore.RunTexts run ∧ t.AcceptsRun run ↔
      Recordable request ∧ ∀ r ∈ t.triageRuns, r.runId ≠ request.runId := by
  rcases h.2 with ⟨status, trace, startedAt, completedAt, hrun⟩
  rw [hrun]
  constructor
  · rintro ⟨⟨hexperiment, hvariant, _⟩, hnew, hverdicts⟩
    exact ⟨⟨hexperiment, hvariant, hverdicts⟩, hnew⟩
  · rintro ⟨⟨hexperiment, hvariant, hverdicts⟩, hnew⟩
    exact ⟨⟨hexperiment, hvariant, storable_traceText trace⟩, hnew, hverdicts⟩

omit [DecidableEq ι] in
/-- The store takes the entry about the run of a request that it took exactly if
    the log has a place for it. -/
theorem accepts_entry_iff {w : World ι} {request : RunRequest} {run : TriageRun}
    {t : TriageStore.Tables} (h : RunFor w request run) (hrecordable : Recordable request)
    (hlogged : TriageStore.Logged t) :
    TriageStore.EntryTexts (TriageStore.nextEntry t.last (contentOf run)) ∧
      t.AcceptsEntry (TriageStore.nextEntry t.last (contentOf run)) ↔
        t.auditLog.length < 2147483647 := by
  rcases h.2 with ⟨status, trace, startedAt, completedAt, hrun⟩
  have hnode : Storable node := by decide
  have htexts : TriageStore.EntryTexts (TriageStore.nextEntry t.last (contentOf run)) := by
    rw [hrun]
    exact TriageStore.entryTexts_nextEntry hlogged hnode hrecordable.1 hrecordable.2.1
      (storable_traceText trace)
  have hverdicts : (jsonb.apply (TriageStore.verdicts (contentOf run).guardVerdicts)).isSome := by
    rw [hrun]
    exact hrecordable.2.2
  rw [TriageStore.acceptsEntry_nextEntry hlogged]
  exact ⟨fun ha => ha.2.1, fun hroom => ⟨htexts, hroom, hverdicts⟩⟩

/-- A statement that is sent succeeds exactly if it finds what it has to. -/
theorem not_failed_iff {policies : Str → Option Policy} {w : World ι}
    (hw : (machine requests policies).Reachable w) {i : ι} {action : Action} {next : Place}
    {statement : TriageStore.Statement} {store : TriageStore.State ι}
    (hsends : (w.place i).sends action = some (statement, next))
    (hstore : TriageStore.step w.store (i, statement) = some store) :
    ¬ (store.session i).Failed ↔ Meets requests i w (i, action) := by
  have hplace := (evidence_of_reachable hw).place i
  have hfor := (systems_of_reachable hw).places i
  have hlog := (store_of_reachable hw).1
  generalize w.place i = place at hsends hplace hfor
  unfold Place.sends at hsends
  split at hsends
  · -- Opening a connection.
    cases hsends
    simp only [TriageStore.step, hplace.1, Option.some.injEq] at hstore
    subst hstore
    simp only [TriageStore.State.goto, Function.update_self, TriageStore.Session.Failed,
      not_false_eq_true, Meets, imp_true_iff]
  · rename_i run
    cases hsends
    have hview : (w.store.view i).triageRuns = w.store.db.committed.triageRuns := by
      rw [TriageStore.State.view, Database.view_of_pending_nil hplace.2]
    rw [TriageStore.not_failed_recordRun hplace.1 hstore, accepts_run_iff hfor, hview]
    exact ⟨fun hm _ => hm, fun hm => hm rfl⟩
  · cases hsends
    rcases hplace.1 with hs | hs | ⟨previous, hs⟩
    · simp only [TriageStore.step, hs] at hstore
      split at hstore
      · cases hstore
        simp only [Function.update_self, TriageStore.Session.Failed, not_false_eq_true, Meets,
          imp_true_iff]
      · cases hstore
    · simp only [TriageStore.step, hs, reduceCtorEq] at hstore
    · simp only [TriageStore.step, hs, reduceCtorEq] at hstore
  · cases hsends
    rcases hplace.1 with hs | hs | ⟨previous, hs⟩
    · simp only [TriageStore.step, hs, reduceCtorEq] at hstore
    · simp only [TriageStore.step, hs, Option.some.injEq] at hstore
      subst hstore
      simp only [TriageStore.State.goto, Function.update_self, TriageStore.Session.Failed,
        not_false_eq_true, Meets, imp_true_iff]
    · simp only [TriageStore.step, hs, reduceCtorEq] at hstore
  · rename_i run
    cases hsends
    rcases hplace.1 with hs | hs | ⟨previous, hs⟩
    · simp only [TriageStore.step, hs, reduceCtorEq] at hstore
    · simp only [TriageStore.step, hs, reduceCtorEq] at hstore
    · -- What was read is the last entry, under the lock.
      have hread := hlog.session i
      rw [hs] at hread
      have hlast : previous = (w.store.view i).last := hread.2
      have hview : (w.store.view i).auditLog = w.store.db.committed.auditLog := by
        rw [TriageStore.State.view, Database.map_view TriageStore.auditLog_appendOnly, hplace.2]
        exact List.append_nil _
      rw [TriageStore.not_failed_insertEntry hs hstore, hlast,
        accepts_entry_iff (t := w.store.view i) hfor.1 hfor.2 (hlog.log.view i), hview]
      exact ⟨fun hm _ => hm, fun hm => hm rfl⟩
  · cases hsends
    simp only [TriageStore.step, hplace.1, Option.some.injEq] at hstore
    subst hstore
    simp only [TriageStore.State.commit, Function.update_self, TriageStore.Session.Failed,
      not_false_eq_true, Meets, imp_true_iff]
  · cases hsends

/-! ### One action -/

/-- Nothing is sent but from a place that is fine, on the way to another. -/
theorem fine_of_sends {place next : Place} {action : Action} {statement : TriageStore.Statement}
    (hsends : place.sends action = some (statement, next)) : place.Fine ∧ next.Fine := by
  unfold Place.sends at hsends
  split at hsends <;> cases hsends <;> exact ⟨trivial, trivial⟩

/-- A clean action of an execution that has not failed succeeds exactly if it
    finds what it has to. -/
theorem fine_iff_of_step {policies : Str → Option Policy} {w w' : World ι}
    (hw : (machine requests policies).Reachable w) {i : ι} {action : Action}
    (hclean : action.Clean) (hfine : (w.place i).Fine)
    (hstep : step requests w (i, action) = some w') :
    (w'.place i).Fine ↔ Meets requests i w (i, action) := by
  have hsystems := systems_of_reachable hw
  have hevidence := evidence_of_reachable hw
  simp only [step] at hstep
  split at hstep
  · cases hstep
    simp only [World.goto, Function.update_self, Place.Fine, Meets, imp_true_iff]
  · rename_i answered id now keyedAt startedAt hs
    have hanswered : answered = true := hclean
    subst hanswered
    have htakes : (∃ claim systems, CoreSim.idempotent w.systems (claimRequest (requests i)) id now
        keyedAt = .ok (.claim claim, systems)) ↔ Takes w.systems (requests i) id :=
      idempotent_claim_iff hsystems
    split at hstep
    · rename_i claim systems hcall
      cases hstep
      simp only [World.taken, Function.update_self, if_true, Place.Fine, true_iff]
      exact fun _ => htakes.mp ⟨claim, systems, hcall⟩
    · cases hstep
    · rename_i e hcall
      cases hstep
      simp only [World.goto, Function.update_self, Place.Fine, false_iff]
      intro hm
      rcases htakes.mpr (hm rfl) with ⟨claim, systems, hok⟩
      rw [hcall] at hok
      cases hok
  · rename_i final trace now startedAt claim hs
    split at hstep
    · cases hstep
      simp only [World.goto, Function.update_self, Place.Fine, Meets, imp_true_iff]
    · rename_i hdecode
      have hsome : (ClaimStatus.codec.decode final).isSome := hclean
      rw [hdecode] at hsome
      cases hsome
  · rename_i answered now keyedAt run hs
    have hanswered : answered = true := hclean
    subst hanswered
    have hplace := hevidence.place i
    rw [hs] at hplace
    rcases told_of_committed hsystems hevidence (store_of_reachable hw).2
      hplace.2.2 now keyedAt with
      ⟨told, after, hok⟩
    split at hstep
    · cases hstep
      simp only [World.told, Function.update_self, if_true, Place.Fine, Meets, imp_true_iff]
    · cases hstep
    · rename_i e hcall
      rw [hcall] at hok
      cases hok
  · exact hclean.elim
  · exact hclean.elim
  · rename_i failure hs
    rw [hs] at hfine
    exact hfine.elim
  · exact hclean.elim
  · exact hclean.elim
  · split at hstep
    · rename_i statement next hsends
      rcases Option.map_eq_some_iff.mp hstep with ⟨store, hstore, rfl⟩
      rw [← not_failed_iff hw hsends hstore]
      simp only [World.sent, Function.update_self]
      split
      · rename_i hfailed
        simp only [Place.Fine, hfailed, not_true_eq_false]
      · rename_i hnot
        simp only [hnot, not_false_eq_true, iff_true]
        exact (fine_of_sends hsends).2
    · cases hstep

/-- An execution that has failed does not recover. -/
theorem not_fine_of_effect {w w' : World ι} {i : ι} (he : Effect requests w i w')
    (h : ¬ (w.place i).Fine) : ¬ (w'.place i).Fine := by
  cases he with
  | @move place hmoves =>
      simp only [World.goto, Function.update_self]
      generalize w.place i = before at h hmoves
      cases hmoves with
      | start => exact absurd trivial h
      | decide => exact absurd trivial h
      | fail => exact id
  | taken hs _ _ =>
      rw [hs] at h
      exact absurd trivial h
  | told hs _ _ =>
      rw [hs] at h
      exact absurd trivial h
  | sent hsends _ _ => exact absurd (fine_of_sends hsends).1 h
  | sentFailed | commitLost | statementFails | rollback | crashOpen | crash =>
      simp only [World.sent, World.goto, Function.update_self]
      exact id

/-! ### A whole attempt -/

/-- How much of an attempt is left, from its place and its transaction's. -/
def remaining : Place → TriageStore.Session → Nat
  | .unstarted, _ => 11
  | .started _, _ => 10
  | .takenIn _ _, _ => 9
  | .opening _, _ => 8
  | .recording _, _ => 7
  | .appending _, .idle => 6
  | .appending _, .locked _ => 5
  | .appending _, _ => 4
  | .appended _, _ => 3
  | .recorded _, _ => 2
  | .unwinding _, _ => 1
  | _, _ => 0

/-- A statement that is sent and does not wait is a step of its execution. -/
theorem step_of_sends {w : World ι} {i : ι} {action : Action} {next : Place}
    {statement : TriageStore.Statement} {store : TriageStore.State ι}
    (hsends : (w.place i).sends action = some (statement, next))
    (hstore : TriageStore.step w.store (i, statement) = some store) :
    step requests w (i, action) =
      some (w.sent i store (if (store.session i).Failed then .unwinding .defect else next)) := by
  unfold Place.sends at hsends
  split at hsends <;> cases hsends
  all_goals
    rename_i hs
    simp only [step, hs, Place.sends, hstore, Option.map_some]

/-- What a statement leads to has its commit and its call to the systems left,
    or the call. -/
theorem two_le_remaining {place next : Place} {action : Action}
    {statement : TriageStore.Statement} (hsends : place.sends action = some (statement, next))
    (session : TriageStore.Session) : 2 ≤ remaining next session := by
  unfold Place.sends at hsends
  split at hsends <;> cases hsends
  all_goals
    cases session <;> simp only [remaining] <;> omega

/-- A statement that is sent and does not wait brings its attempt on, whether it
    succeeds or not, if it does where it succeeds. -/
theorem exists_step_of_sends {w : World ι} {i : ι} {action : Action} {next : Place}
    {statement : TriageStore.Statement} {store : TriageStore.State ι} {id : Uuid}
    (hsends : (w.place i).sends action = some (statement, next))
    (hclean : action.Clean ∧ action.Under id)
    (hstore : TriageStore.step w.store (i, statement) = some store)
    (hless : remaining next (store.session i) < remaining (w.place i) (w.store.session i)) :
    ∃ action w', (action.Clean ∧ action.Under id) ∧ step requests w (i, action) = some w' ∧
      remaining (w'.place i) (w'.store.session i) <
        remaining (w.place i) (w.store.session i) := by
  refine ⟨action, _, hclean, step_of_sends hsends hstore, ?_⟩
  have hleft := two_le_remaining hsends (store.session i)
  simp only [World.sent, Function.update_self]
  split
  · -- An attempt that failed has its transaction left to end, and no more.
    have hone : remaining (.unwinding .defect) (store.session i) = 1 := rfl
    omega
  · exact hless

/-- What the systems answer a run's two calls with is a claim. -/
theorem claim_of_replayed {row : CoreSim.KeyRow} {request : CoreSim.Request}
    {answer : CoreSim.Answer}
    (hcall : (∃ submission, request.call = .create submission) ∨
      ∃ claimId status, request.call = .recordStatus claimId status)
    (h : CoreSim.replayed row request = .ok answer) : ∃ claim, answer = .claim claim := by
  have hread := (CoreSim.replayed_eq_ok.mp h).2
  rcases Option.bind_eq_some_iff.mp hread with ⟨kept, _, hvalidate⟩
  rcases hcall with ⟨submission, hcall⟩ | ⟨claimId, status, hcall⟩
  all_goals
    rw [hcall] at hvalidate
    rcases Option.map_eq_some_iff.mp hvalidate with ⟨claim, _, rfl⟩
    exact ⟨claim, rfl⟩

/-- An attempt that is not over has a clean action to take, with less left after
    it, unless another transaction is open; and any identifier will do for its
    claim. -/
theorem exists_step {policies : Str → Option Policy} {w : World ι}
    (hw : (machine requests policies).Reachable w) {i : ι}
    (hothers : ∀ j, j ≠ i → ¬ (w.store.session j).Open) (hover : ¬ (w.place i).Over) (id : Uuid) :
    ∃ action w', (action.Clean ∧ action.Under id) ∧ step requests w (i, action) = some w' ∧
      remaining (w'.place i) (w'.store.session i) <
        remaining (w.place i) (w.store.session i) := by
  have hplace := (evidence_of_reachable hw).place i
  have hfree := (store_of_reachable hw).2.free hothers
  let now : Moment := ⟨⟨2026, 1, 3, by decide, by decide, by decide⟩,
    ⟨12, 0, 0, 0, by decide, by decide, by decide, by decide⟩⟩
  have hdecode : ClaimStatus.codec.decode (text "triaged") = some .triaged := by decide
  obtain ⟨place, hs⟩ : ∃ place, w.place i = place := ⟨_, rfl⟩
  rw [hs] at hplace hover
  cases place with
  | unstarted =>
      refine ⟨.start now, w.goto i (.started now), ⟨trivial, trivial⟩, ?_, ?_⟩
      · simp only [step, hs]
      · simp only [World.goto, Function.update_self, hs, remaining]
        omega
  | started startedAt =>
      cases hcall : CoreSim.idempotent w.systems (claimRequest (requests i)) id now now with
      | error e =>
          refine ⟨.takeIn true id now now, w.goto i (.raised (relayed e)), ⟨rfl, rfl⟩, ?_, ?_⟩
          · simp only [step, hs, hcall, if_true]
          · simp only [World.goto, Function.update_self, hs, remaining]
            omega
      | ok answered =>
          rcases answered with ⟨answer, systems⟩
          have hclaim : ∃ claim, answer = .claim claim := by
            rcases CoreSim.idempotent_eq_ok.mp hcall with ⟨_, hdone⟩
            rcases done_claim hdone with ⟨_, row, _, hr⟩ | ⟨_, hanswer, _⟩
            · exact claim_of_replayed (Or.inl ⟨_, rfl⟩) hr
            · exact ⟨_, hanswer⟩
          rcases hclaim with ⟨claim, rfl⟩
          refine ⟨.takeIn true id now now,
            w.taken i (requests i) claim systems (.takenIn startedAt claim), ⟨rfl, rfl⟩, ?_, ?_⟩
          · simp only [step, hs, hcall, if_true]
          · simp only [World.taken, Function.update_self, hs, remaining]
            omega
  | takenIn startedAt claim =>
      refine ⟨.decide (text "triaged") none now,
        w.goto i (.opening (runOf (requests i) claim.claimId .triaged none startedAt now)),
        ⟨?_, trivial⟩, ?_, ?_⟩
      · simp only [Action.Clean, hdecode, Option.isSome_some]
      · simp only [step, hs, hdecode]
      · simp only [World.goto, Function.update_self, hs, remaining]
        omega
  | opening run =>
      have hstore : TriageStore.step w.store (i, .connect) = some (w.store.goto i .idle) := by
        simp only [TriageStore.step, hplace.1]
      have hsends : (w.place i).sends .connect = some (.connect, .recording run) := by
        rw [hs]
        rfl
      refine exists_step_of_sends hsends ⟨trivial, trivial⟩ hstore ?_
      simp only [hs, remaining]
      omega
  | recording run =>
      rcases TriageStore.exists_recordRun hplace.1 hfree with ⟨store, hstore⟩
      have hsends : (w.place i).sends .recordRun = some (.recordRun run, .appending run) := by
        rw [hs]
        rfl
      refine exists_step_of_sends hsends ⟨trivial, trivial⟩ hstore ?_
      rw [hs]
      cases store.session i <;> simp only [remaining] <;> omega
  | appending run =>
      rcases hplace.1 with hsession | hsession | ⟨previous, hsession⟩
      · have hstore : TriageStore.step w.store (i, .lockChain (contentOf run)) =
            some { db := w.store.db.acquire .chainLock i,
                   session := Function.update w.store.session i (.locked (contentOf run)) } := by
          simp only [TriageStore.step, hsession, hfree, if_true]
        have hsends : (w.place i).sends .lockChain =
            some (.lockChain (contentOf run), .appending run) := by
          rw [hs]
          rfl
        refine exists_step_of_sends hsends ⟨trivial, trivial⟩ hstore ?_
        simp only [hs, hsession, Function.update_self, remaining]
        omega
      · have hstore : TriageStore.step w.store (i, .readLast) =
            some (w.store.goto i (.read (contentOf run) (w.store.view i).last)) := by
          simp only [TriageStore.step, hsession]
        have hsends : (w.place i).sends .readLast = some (.readLast, .appending run) := by
          rw [hs]
          rfl
        refine exists_step_of_sends hsends ⟨trivial, trivial⟩ hstore ?_
        simp only [hs, hsession, TriageStore.State.goto, Function.update_self, remaining]
        omega
      · rcases TriageStore.exists_insertEntry hsession hfree with ⟨store, hstore⟩
        have hsends : (w.place i).sends .insertEntry = some (.insertEntry, .appended run) := by
          rw [hs]
          rfl
        refine exists_step_of_sends hsends ⟨trivial, trivial⟩ hstore ?_
        simp only [hs, hsession, remaining]
        omega
  | appended run =>
      have hstore : TriageStore.step w.store (i, .commit) = some (w.store.commit i) := by
        simp only [TriageStore.step, hplace.1]
      have hsends : (w.place i).sends .commit = some (.commit, .recorded run) := by
        rw [hs]
        rfl
      refine exists_step_of_sends hsends ⟨trivial, trivial⟩ hstore ?_
      simp only [hs, remaining]
      omega
  | recorded run =>
      cases hcall : CoreSim.idempotent w.systems (statusRequest run) run.claimId now now with
      | error e =>
          refine ⟨.emit true now now, w.goto i (.raised (relayed e)), ⟨rfl, trivial⟩, ?_, ?_⟩
          · simp only [step, hs, hcall, if_true]
          · simp only [World.goto, Function.update_self, hs, remaining]
            omega
      | ok answered =>
          rcases answered with ⟨answer, systems⟩
          have hclaim : ∃ claim, answer = .claim claim := by
            rcases CoreSim.idempotent_eq_ok.mp hcall with ⟨_, hdone⟩
            rcases done_status hdone with ⟨_, row, _, hr⟩ | ⟨_, _, _, hanswer, _⟩
            · exact claim_of_replayed (Or.inr ⟨_, _, rfl⟩) hr
            · exact ⟨_, hanswer⟩
          rcases hclaim with ⟨claim, rfl⟩
          refine ⟨.emit true now now, w.told i systems (.returned (resultOf run claim.status)),
            ⟨rfl, trivial⟩, ?_, ?_⟩
          · simp only [step, hs, hcall, if_true]
          · simp only [World.told, Function.update_self, hs, remaining]
            omega
  | unwinding failure =>
      have hopen : (w.store.session i).Open := open_of_failed hplace
      have hstore : TriageStore.step w.store (i, .rollback) = some (w.store.rollback i) := by
        simp only [TriageStore.step, hopen, if_true]
      refine ⟨.rollback, w.sent i (w.store.rollback i) (.raised failure), ⟨trivial, trivial⟩,
        ?_, ?_⟩
      · simp only [step, hs, hstore, Option.map_some]
      · simp only [World.sent, Function.update_self, hs, remaining]
        omega
  | returned | raised | crashed => exact absurd trivial hover

/-- An attempt with nobody in its way comes to its end, whatever identifier its
    claim is taken in under. -/
theorem exists_attempt {policies : Str → Option Policy} {w : World ι}
    (hw : (machine requests policies).Reachable w) {i : ι}
    (hothers : ∀ j, j ≠ i → ¬ (w.store.session j).Open) (id : Uuid) :
    ∃ as w', (∀ act ∈ as, act.1 = i ∧ act.2.Clean ∧ act.2.Under id) ∧
      (machine requests policies).run w as = some w' ∧ (w'.place i).Over := by
  -- By induction on how much of it is left.
  obtain ⟨n, hn⟩ : ∃ n, remaining (w.place i) (w.store.session i) = n := ⟨_, rfl⟩
  induction n using Nat.strong_induction_on generalizing w with
  | h n ih =>
      by_cases hover : (w.place i).Over
      · exact ⟨[], w, fun act hact => absurd hact List.not_mem_nil, rfl, hover⟩
      · rcases exists_step hw hothers hover id with ⟨action, w₁, hclean, hstep, hless⟩
        have hstep' : (machine requests policies).step w (i, action) = some w₁ := hstep
        have hothers' : ∀ j, j ≠ i → ¬ (w₁.store.session j).Open := by
          intro j hji
          rcases (effect_of_step hstep).store with hsame | ⟨b, he⟩
          · rw [hsame]
            exact hothers j hji
          · rw [(he.frame.1 j hji).1]
            exact hothers j hji
        rcases ih _ (hn ▸ hless) (hw.step hstep') hothers' rfl with ⟨as, w', has, hrun, hend⟩
        refine ⟨(i, action) :: as, w', ?_, Machine.run_cons_eq_some.mpr ⟨w₁, hstep', hrun⟩, hend⟩
        intro act hact
        rcases List.mem_cons.mp hact with rfl | hact
        · exact ⟨rfl, hclean⟩
        · exact has act hact

/-- Along a run in which nothing of an execution fails it stays fine exactly if
    each of its actions finds what it has to. -/
theorem fine_iff_of_run {policies : Str → Option Policy} {w w' : World ι}
    (hw : (machine requests policies).Reachable w) {i : ι} (hfine : (w.place i).Fine)
    {as : List (ι × Action)} (hclean : ∀ act ∈ as, act.1 = i → act.2.Clean)
    (hrun : (machine requests policies).run w as = some w') :
    (w'.place i).Fine ↔ (machine requests policies).Along (Meets requests i) w as := by
  refine hw.along_iff (P := fun w => (w.place i).Fine) ?_ ?_ hfine hclean hrun
  · rintro w ⟨j, action⟩ w' hw hclean hfine hstep
    by_cases hji : j = i
    · subst hji
      exact fine_iff_of_step hw (hclean rfl) hfine hstep
    · -- Another execution's action is none of its business.
      rw [(effect_of_machine hstep).place fun heq => hji heq.symm]
      exact iff_of_true hfine fun heq => absurd heq hji
  · rintro w ⟨j, action⟩ w' hw _ hfine hstep
    have he := effect_of_machine hstep
    by_cases hji : j = i
    · subst hji
      exact not_fine_of_effect he hfine
    · rw [he.place fun heq => hji heq.symm]
      exact hfine

/-- From wherever any number of executions of any runs got to, one more attempt
    at a run, with everything reachable. It comes to an end where nobody is in
    its way; and at its end, whoever else moved on meanwhile, it has returned,
    and its run is closed with what it returned, exactly if the systems took its
    claim, or had for the same submission, the columns take what its request
    gives its run, nobody had committed the run when it recorded it, and the log
    had a place for its entry. -/
theorem closes_iff_of_run {policies : Str → Option Policy} {w : World ι}
    (hw : (machine requests policies).Reachable w) {i : ι} (hi : w.place i = .unstarted) :
    ((∀ j, ¬ (w.store.session j).Open) → ∃ as w', (∀ act ∈ as, act.1 = i ∧ act.2.Clean) ∧
      (machine requests policies).run w as = some w' ∧ (w'.place i).Over) ∧
    ∀ as w', (∀ act ∈ as, act.1 = i → act.2.Clean) →
      (machine requests policies).run w as = some w' → (w'.place i).Over →
        ((∃ result, w'.place i = .returned result ∧ Closed w' (requests i) result) ↔
          (machine requests policies).Along (Meets requests i) w as) := by
  refine ⟨fun hquiet => ?_, ?_⟩
  · rcases exists_attempt hw (fun j _ => hquiet j) ⟨1, by decide⟩ with ⟨as, w', has, hend⟩
    exact ⟨as, w', fun act hact => ⟨(has act hact).1, (has act hact).2.1⟩, hend⟩
  intro as w' hclean hrun hover
  have hfine : (w.place i).Fine := by
    rw [hi]
    trivial
  rw [← fine_iff_of_run hw hfine hclean hrun]
  constructor
  · rintro ⟨result, hreturned, _⟩
    rw [hreturned]
    trivial
  · intro hend
    obtain ⟨place, hs⟩ : ∃ place, w'.place i = place := ⟨_, rfl⟩
    rw [hs] at hover hend
    cases place with
    | returned result => exact ⟨result, hs, closed_of_returned (hw.run hrun) hs⟩
    | raised | crashed => exact hend.elim
    | unstarted | started | takenIn | opening | recording | appending | appended | recorded
    | unwinding => exact hover.elim

set_option maxRecDepth 100000 in
theorem closes_iff_of_run_throughout :
    ∃ w' : World Unit, (machine (fun _ => claimed) CoreSim.Tables.seeded.policies).run
        (start CoreSim.Tables.seeded.policies) throughout = some w' ∧
      (machine (fun _ => claimed) CoreSim.Tables.seeded.policies).Along
        (Meets (fun _ => claimed) ()) (start CoreSim.Tables.seeded.policies) throughout := by
  have hrun : (((machine (fun _ => claimed) CoreSim.Tables.seeded.policies).run
      (start CoreSim.Tables.seeded.policies) throughout).bind fun w =>
        match w.place () with
        | .returned result => some result.status
        | _ => none) = some .triaged := by decide +kernel
  rcases Option.bind_eq_some_iff.mp hrun with ⟨w, hw, hplace⟩
  have hreturned : ∃ result, w.place () = .returned result := by
    revert hplace
    cases w.place () with
    | returned result => exact fun _ => ⟨result, rfl⟩
    | _ => exact nofun
  rcases hreturned with ⟨result, hreturned⟩
  have hstart : (machine (fun _ : Unit => claimed) CoreSim.Tables.seeded.policies).Reachable
      (start CoreSim.Tables.seeded.policies) := Machine.reachable_init rfl
  have hclean : ∀ act ∈ throughout, act.1 = () → act.2.Clean := by decide +kernel
  have hover : (w.place ()).Over := by
    rw [hreturned]
    trivial
  exact ⟨w, hw, ((closes_iff_of_run hstart rfl).2 throughout w hclean hw hover).mp
    ⟨result, hreturned, closed_of_returned (hstart.run hw) hreturned⟩⟩

/-- An attempt that commits its run and cannot reach the systems then. -/
def toldNobody : List (Bool × Action) :=
  (throughout.dropLast.map fun act => (true, act.2)) ++ [(true, .fail .unavailable)]

/-- The next attempt, which reaches everything. -/
def retried : List (Bool × Action) :=
  let now : Moment :=
    ⟨⟨2026, 1, 4, Date.newYear.year_valid, Date.newYear.month_valid, by decide⟩, .noon⟩
  [.start now, .takeIn true ⟨2, Uuid.two_valid⟩ now now, .decide (text "triaged") none now,
    .connect, .recordRun, .rollback].map fun action => (false, action)

set_option maxRecDepth 100000 in
/-- A retry does not close a failed emission: where an attempt committed its run
    and its entry and could not tell the systems, the next attempt of the same
    request raises though everything is reachable, and the systems' claim stays
    at the status it was received with. -/
theorem not_closes_retried :
    ∃ w w' : World Bool,
      (machine (fun _ => claimed) CoreSim.Tables.seeded.policies).Reachable w ∧
      (w.store.db.committed.triageRuns.map (·.runId) = [claimed.runId] ∧
        w.store.db.committed.auditLog.map (·.runId) = [claimed.runId] ∧
        w.place true = .raised .unavailable ∧ w.place false = .unstarted ∧
        (∀ j, ¬ (w.store.session j).Open)) ∧
      (∀ act ∈ retried, act.1 = false ∧ act.2.Clean) ∧
      (machine (fun _ => claimed) CoreSim.Tables.seeded.policies).run w retried = some w' ∧
      w'.place false = .raised .defect ∧
      (w'.systems.idempotencyKeys (statusKey claimed.runId) = none ∧
        (w'.systems.claims ⟨1, by decide⟩).map (·.status) = some .received) := by
  have hfirst : (((machine (fun _ : Bool => claimed) CoreSim.Tables.seeded.policies).run
      (start CoreSim.Tables.seeded.policies) toldNobody).map fun w =>
        decide (w.store.db.committed.triageRuns.map (·.runId) = [claimed.runId] ∧
          w.store.db.committed.auditLog.map (·.runId) = [claimed.runId] ∧
          w.place true = .raised .unavailable ∧ w.place false = .unstarted ∧
          ∀ j, ¬ (w.store.session j).Open)) = some true := by decide +kernel
  have hboth : (((machine (fun _ : Bool => claimed) CoreSim.Tables.seeded.policies).run
      (start CoreSim.Tables.seeded.policies) (toldNobody ++ retried)).map fun w =>
        decide (w.place false = .raised .defect ∧
          (w.systems.idempotencyKeys (statusKey claimed.runId)).isNone ∧
          (w.systems.claims ⟨1, by decide⟩).map (·.status) = some .received)) = some true := by
    decide +kernel
  rcases Option.map_eq_some_iff.mp hfirst with ⟨w, hw, hbefore⟩
  rcases Option.map_eq_some_iff.mp hboth with ⟨w', hw', hafter⟩
  rcases Machine.run_append.mp hw' with ⟨t, ht, hretried⟩
  rw [hw, Option.some.injEq] at ht
  subst ht
  rcases of_decide_eq_true hafter with ⟨hraised, hkey, hclaim⟩
  exact ⟨w, w', ⟨start CoreSim.Tables.seeded.policies, toldNobody, rfl, hw⟩,
    of_decide_eq_true hbefore, by decide +kernel, hretried, hraised,
    Option.isNone_iff_eq_none.mp hkey, hclaim⟩

end Runs

end Pipeline

end ClaimTriage
