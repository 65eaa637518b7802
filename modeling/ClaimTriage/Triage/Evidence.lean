import ClaimTriage.CoreSim.Writes
import ClaimTriage.Triage.Pipeline

/-!
# Evidence

What the audit log says of the runs, whatever becomes of the executions that
recorded them.

A run and its entry are pending together and committed together, in the order
the transactions end, so the two tables are one list written twice. What the
surrounding systems were told under a run's key was told by an execution that
was past its commit, so whatever they hold has a run and an entry behind it.

## Main definitions

* `Agrees`: An entry is about a run.
* `PlaceInv`: What an execution's place says of its transaction.
* `Told`: What a key recorded is the systems' answer about a run.
* `EvidenceInv`: The invariant of the two tables and the systems' keys.

## Theorems

* `evidence_of_reachable`: The invariant holds wherever the executions get to.
* `paired_of_run`: Runs and entries are paired, and no run ever changes.
* `evidence_of_status`: What the systems were told has its evidence.
-/

namespace ClaimTriage

open Theory Text Calendar

namespace Pipeline

/-- An entry is about a run: they agree on whatever both of them say, and the
    entry is of the run's last moment. -/
structure Agrees (run : TriageRun) (entry : Audit.AuditEntry) : Prop where
  runId : entry.runId = run.runId
  claimId : entry.claimId = run.claimId
  status : entry.status = run.status
  guardVerdicts : entry.guardVerdicts = run.guardVerdicts
  experiment : entry.experiment = run.experiment
  variant : entry.variant = run.variant
  traceId : entry.traceId = run.traceId
  recordedAt : entry.recordedAt = run.completedAt

/-- The entry an append writes of a run's content is about the run. -/
theorem agrees_nextEntry (previous : Option (Int × Str)) (run : TriageRun) :
    Agrees run (TriageStore.nextEntry previous (contentOf run)) :=
  ⟨rfl, rfl, rfl, rfl, rfl, rfl, rfl, rfl⟩

section Runs

variable {ι : Type} [DecidableEq ι] {requests : ι → RunRequest}

/-! ### Where a transaction is -/

/-- The block of an append of a run's content, at any of its places. -/
def Appends (run : TriageRun) (session : TriageStore.Session) : Prop :=
  session = .idle ∨ session = .locked (contentOf run) ∨
    ∃ previous, session = .read (contentOf run) previous

/-- What an execution's place says of its transaction: it has none before its
    connection is opened, has inserted what its place says, and has committed
    the run once it is recorded. -/
def PlaceInv (s : TriageStore.State ι) (i : ι) : Place → Prop
  | .unstarted | .started _ | .takenIn _ _ | .opening _ =>
    s.session i = .unopened ∧ s.db.pending i = []
  | .recording _ => s.session i = .idle ∧ s.db.pending i = []
  | .appending run => Appends run (s.session i) ∧ s.db.pending i = [.run run]
  | .appended run => s.session i = .idle ∧
    ∃ entry, Agrees run entry ∧ s.db.pending i = [.run run, .entry entry]
  | .recorded run =>
    s.session i = .closed ∧ s.db.pending i = [] ∧ run ∈ s.db.committed.triageRuns
  | .unwinding _ => (s.session i).Failed
  | .returned _ | .raised _ | .crashed => ¬ (s.session i).Open ∧ s.db.pending i = []

/-- Another execution's statement moves nobody else. -/
theorem PlaceInv.frame {s s' : TriageStore.State ι} {i j : ι} {a : TriageStore.Statement}
    {place : Place} (h : PlaceInv s j place) (he : TriageStore.Effect s i a s') (hji : j ≠ i) :
    PlaceInv s' j place := by
  rcases he.frame.1 j hji with ⟨hsession, hpending⟩
  cases place with
  | recorded run =>
      rw [PlaceInv, hsession, hpending]
      exact ⟨h.1, h.2.1, he.grown.subset h.2.2⟩
  | unwinding failure =>
      rw [PlaceInv, hsession]
      exact h
  | unstarted | started | takenIn | opening | recording | appending | appended | returned
  | raised | crashed =>
      rw [PlaceInv, hsession, hpending]
      exact h

omit [DecidableEq ι] in
/-- Going from one place to another outside a transaction. -/
theorem PlaceInv.moves {s : TriageStore.State ι} {i : ι} {request : RunRequest}
    {place next : Place} (h : PlaceInv s i place) (hmoves : Moves request place next) :
    PlaceInv s i next := by
  cases hmoves with
  | start => exact h
  | decide => exact h
  | fail houtside =>
      cases place with
      | started | takenIn | opening =>
          refine ⟨?_, h.2⟩
          rw [h.1]
          exact id
      | recorded run =>
          refine ⟨?_, h.2.1⟩
          rw [h.1]
          exact id
      | unstarted | recording | appending | appended | unwinding | returned | raised | crashed =>
          exact houtside.elim

/-- What a statement that did not fail comes to, from one place to the next. -/
inductive Sent (s : TriageStore.State ι) (i : ι) : Place → Place → TriageStore.State ι → Prop
  | connect {run : TriageRun} : Sent s i (.opening run) (.recording run) (s.goto i .idle)
  | recordRun {run : TriageRun} : TriageStore.RunTexts run → (s.view i).AcceptsRun run →
      Sent s i (.recording run) (.appending run) (s.insert i (.runKey run.runId) (.run run))
  | lockChain {run : TriageRun} : Sent s i (.appending run) (.appending run)
      { db := s.db.acquire .chainLock i,
        session := Function.update s.session i (.locked (contentOf run)) }
  | readLast {run : TriageRun} : s.session i = .locked (contentOf run) →
      Sent s i (.appending run) (.appending run)
        (s.goto i (.read (contentOf run) (s.view i).last))
  | insertEntry {run : TriageRun} {previous : Option (Int × Str)} :
      s.session i = .read (contentOf run) previous →
      Sent s i (.appending run) (.appended run)
        (s.insert i (.seqKey (TriageStore.nextEntry previous (contentOf run)).seq)
          (.entry (TriageStore.nextEntry previous (contentOf run))))
  | commit {run : TriageRun} : Sent s i (.appended run) (.recorded run) (s.commit i)

/-- A statement that was sent and did not fail is one of these: what a block
    appends is the content of its run. -/
theorem sent_of_effect {s s' : TriageStore.State ι} {i : ι} {place next : Place} {action : Action}
    {statement : TriageStore.Statement} (h : PlaceInv s i place)
    (hsends : place.sends action = some (statement, next))
    (he : TriageStore.Effect s i statement s') (hfine : ¬ (s'.session i).Failed) :
    Sent s i place next s' := by
  have hraised : s' ≠ s.goto i .raised := by
    rintro rfl
    simp only [TriageStore.State.goto, Function.update_self] at hfine
    exact hfine trivial
  have haborted : s' ≠ s.goto i .aborted := by
    rintro rfl
    simp only [TriageStore.State.goto, Function.update_self] at hfine
    exact hfine trivial
  -- Nothing is rolled back on the way: a block that commits is between calls.
  have hkept : ¬ (statement = .rollback ∨ (statement = .commit ∧ s.session i = .aborted)) := by
    rintro (rfl | ⟨rfl, hs⟩)
    · unfold Place.sends at hsends
      split at hsends <;> cases hsends
    · unfold Place.sends at hsends
      split at hsends <;> cases hsends
      rw [h.1] at hs
      cases hs
  -- The cases are what a place sends, each with the one effect that does not fail.
  unfold Place.sends at hsends
  split at hsends
  · cases hsends
    cases he with
    | connect => exact .connect
    | raise => exact absurd rfl hraised
    | abort => exact absurd rfl haborted
    | rollback _ ha => exact absurd ha hkept
  · cases hsends
    cases he with
    | recordRun _ htexts _ haccepts => exact .recordRun htexts haccepts
    | raise => exact absurd rfl hraised
    | abort => exact absurd rfl haborted
    | rollback _ ha => exact absurd ha hkept
  · cases hsends
    cases he with
    | lockChain => exact .lockChain
    | raise => exact absurd rfl hraised
    | abort => exact absurd rfl haborted
    | rollback _ ha => exact absurd ha hkept
  · cases hsends
    cases he with
    | readLast hs =>
        rcases h.1 with hi | hi | ⟨_, hi⟩
        · rw [hi] at hs
          cases hs
        · rw [hi] at hs
          cases hs
          exact .readLast hi
        · rw [hi] at hs
          cases hs
    | raise => exact absurd rfl hraised
    | abort => exact absurd rfl haborted
    | rollback _ ha => exact absurd ha hkept
  · cases hsends
    cases he with
    | insertEntry hs =>
        rcases h.1 with hi | hi | ⟨_, hi⟩
        · rw [hi] at hs
          cases hs
        · rw [hi] at hs
          cases hs
        · rw [hi] at hs
          cases hs
          exact .insertEntry hi
    | raise => exact absurd rfl hraised
    | abort => exact absurd rfl haborted
    | rollback _ ha => exact absurd ha hkept
  · cases hsends
    cases he with
    | commit => exact .commit
    | raise _ ha => exact absurd rfl hraised
    | abort _ ha => exact absurd rfl haborted
    | rollback _ ha => exact absurd ha hkept
  · cases hsends

/-- Only an execution that is done with its append commits. -/
theorem appended_of_commit {place next : Place} {action : Action}
    (hsends : place.sends action = some (.commit, next)) : ∃ run, place = .appended run := by
  unfold Place.sends at hsends
  split at hsends <;> cases hsends
  exact ⟨_, rfl⟩

omit [DecidableEq ι] in
/-- A block that is done with an append has written the run and its entry, and
    nothing else. -/
theorem view_appended {s : TriageStore.State ι} {i : ι} {run : TriageRun}
    (h : PlaceInv s i (.appended run)) :
    ∃ entry, Agrees run entry ∧
      (s.view i).triageRuns = s.db.committed.triageRuns ++ [run] ∧
      (s.view i).auditLog = s.db.committed.auditLog ++ [entry] := by
  rcases h.2 with ⟨entry, hagrees, hpending⟩
  refine ⟨entry, hagrees, ?_, ?_⟩
  · rw [TriageStore.State.view, Database.map_view TriageStore.triageRuns_appendOnly, hpending]
    rfl
  · rw [TriageStore.State.view, Database.map_view TriageStore.auditLog_appendOnly, hpending]
    rfl

/-- A statement leads where its place says. -/
theorem PlaceInv.sent {s s' : TriageStore.State ι} {i : ι} {place next : Place}
    (h : PlaceInv s i place) (hsent : Sent s i place next s') : PlaceInv s' i next := by
  cases hsent with
  | connect =>
      simp only [PlaceInv, TriageStore.State.goto, Function.update_self, h.2, and_self]
  | recordRun _ _ =>
      refine ⟨Or.inl ?_, ?_⟩
      · simp only [TriageStore.State.insert, Function.update_self]
      · simp only [TriageStore.State.insert, Database.pending_write_self,
          Database.pending_acquire, h.2, List.nil_append]
  | lockChain =>
      refine ⟨Or.inr (Or.inl ?_), h.2⟩
      simp only [Function.update_self]
  | readLast _ =>
      refine ⟨Or.inr (Or.inr ⟨(s.view i).last, ?_⟩), h.2⟩
      simp only [TriageStore.State.goto, Function.update_self]
  | @insertEntry run previous _ =>
      refine ⟨?_, _, agrees_nextEntry previous run, ?_⟩
      · simp only [TriageStore.State.insert, Function.update_self]
      · simp only [TriageStore.State.insert, Database.pending_write_self,
          Database.pending_acquire, h.2, List.cons_append, List.nil_append]
  | @commit run =>
      -- What was pending is committed now, and the run is among it.
      rcases view_appended h with ⟨_, _, hruns, _⟩
      refine ⟨?_, ?_, ?_⟩
      · simp only [TriageStore.State.commit, Function.update_self]
      · simp only [TriageStore.State.commit, Database.pending_commit_self]
      · simp only [TriageStore.State.commit, Database.committed_commit]
        rw [← TriageStore.State.view, hruns]
        exact List.mem_append_right _ (List.mem_singleton_self run)

/-- A block that asked for its transaction to end has none any more. -/
theorem ended_of_effect {s s' : TriageStore.State ι} {i : ι} {a : TriageStore.Statement}
    (he : TriageStore.Effect s i a s') (ha : a = .commit ∨ a = .rollback) :
    ¬ (s'.session i).Open ∧ s'.db.pending i = [] := by
  cases he with
  | commit _ =>
      simp only [TriageStore.State.commit, Function.update_self, Database.pending_commit_self,
        TriageStore.Session.Open, not_false_eq_true, and_self]
  | rollback _ _ =>
      simp only [TriageStore.State.rollback, Function.update_self, Database.pending_rollback_self,
        TriageStore.Session.Open, not_false_eq_true, and_self]
  | raise _ hkind | abort _ hkind =>
      rcases ha with rfl | rfl <;>
        simp only [reduceCtorEq, exists_false, or_self] at hkind
  | connect | recordRun | lockChain | readLast | insertEntry | resume =>
      rcases ha with h | h <;> cases h

/-- A block whose statement fails is on its way out. -/
theorem failed_of_effect {s s' : TriageStore.State ι} {i : ι}
    (he : TriageStore.Effect s i .fail s') : (s'.session i).Failed := by
  cases he with
  | raise | abort =>
      simp only [TriageStore.State.goto, Function.update_self]
      trivial
  | rollback _ ha => simp only [reduceCtorEq, false_and, or_self] at ha

omit [DecidableEq ι] in
theorem open_of_appends {run : TriageRun} {session : TriageStore.Session}
    (h : Appends run session) : session.Open := by
  rcases h with rfl | rfl | ⟨_, rfl⟩ <;> trivial

omit [DecidableEq ι] in
theorem open_of_failed {session : TriageStore.Session} (h : session.Failed) : session.Open := by
  cases session with
  | raised | aborted => trivial
  | unopened | idle | locked | read | closed => exact h.elim

omit [DecidableEq ι] in
/-- Where no transaction is open nothing is pending. -/
theorem PlaceInv.pending_nil {s : TriageStore.State ι} {i : ι} {place : Place}
    (h : PlaceInv s i place) (hclosed : ¬ (s.session i).Open) : s.db.pending i = [] := by
  cases place with
  | unstarted | started | takenIn | opening | recording | returned | raised | crashed => exact h.2
  | recorded run => exact h.2.1
  | appending run => exact absurd (open_of_appends h.1) hclosed
  | appended run =>
      rw [h.1] at hclosed
      exact absurd trivial hclosed
  | unwinding failure => exact absurd (open_of_failed h) hclosed

/-! ### What the systems were told -/

/-- What a key recorded is the systems' answer to the status of a run. -/
def Told (run : TriageRun) (row : CoreSim.KeyRow) : Prop :=
  ∃ claim now, row = CoreSim.keyRow (statusRequest run) (.claim claim) now ∧
    claim.claimId = run.claimId ∧ claim.status = run.status ∧ Storable claim.policyNumber

/-- Telling the systems of a run finds what its key recorded, or appends the
    run's status to the claim's history and records it. -/
theorem done_status {t after : CoreSim.Tables} {run : TriageRun} {id : Uuid}
    {now keyedAt : Moment} {answer : CoreSim.Answer}
    (h : CoreSim.Done t (statusRequest run) id now keyedAt answer after) :
    (after = t ∧ ∃ row, t.idempotencyKeys (statusKey run.runId) = some row ∧
        CoreSim.replayed row (statusRequest run) = .ok answer) ∨
      ∃ row, t.claims run.claimId = some row ∧ t.idempotencyKeys (statusKey run.runId) = none ∧
        answer = .claim (CoreSim.transitioned (CoreSim.stored row) run.status now) ∧
        after = (t.apply (.status run.claimId
          (CoreSim.transitioned (CoreSim.stored row) run.status now))).apply
            (.key (statusKey run.runId) (CoreSim.keyRow (statusRequest run) answer keyedAt)) := by
  cases h with
  | replayed hrow hr => exact Or.inl ⟨rfl, _, hrow, hr⟩
  | performed hfree hfinds _ _ _ =>
      refine Or.inr ?_
      -- A status is recorded by one kind of call only.
      generalize hcall : (statusRequest run).call = call at hfinds
      cases hfinds with
      | recordStatus hrow =>
          cases hcall
          exact ⟨_, hrow, hfree, rfl, rfl⟩
      | create | attachDocument | recordParty => cases hcall

/-- What the systems record of a run they are told of is their answer to it. -/
theorem told_of_done {t after : CoreSim.Tables} {run : TriageRun} {id : Uuid}
    {now keyedAt : Moment} {answer : CoreSim.Answer} (hrows : CoreSim.RowsInv t)
    (h : CoreSim.Done t (statusRequest run) id now keyedAt answer after)
    {row : CoreSim.KeyRow} (hrow : after.idempotencyKeys (statusKey run.runId) = some row) :
    t.idempotencyKeys (statusKey run.runId) = some row ∨ Told run row := by
  rcases done_status h with ⟨rfl, _⟩ | ⟨claim, hclaim, _, rfl, rfl⟩
  · exact Or.inl hrow
  · refine Or.inr ?_
    rw [CoreSim.idempotencyKeys_apply_key, Function.update_self, Option.some.injEq] at hrow
    rcases hrows _ _ hclaim with ⟨hid, hstorable⟩
    exact ⟨_, keyedAt, hrow.symm, hid, rfl, hstorable⟩

/-! ### The invariant -/

/-- Executions are where their transactions are, runs and entries are one list
    written twice, what the systems were told has its run, and their claims are
    in order. -/
structure EvidenceInv (w : World ι) : Prop where
  place : ∀ i, PlaceInv w.store i (w.place i)
  paired : List.Forall₂ Agrees w.store.db.committed.triageRuns w.store.db.committed.auditLog
  told : ∀ runId row, w.systems.idempotencyKeys (statusKey runId) = some row →
    ∃ run ∈ w.store.db.committed.triageRuns, run.runId = runId ∧ Told run row
  rows : CoreSim.RowsInv w.systems

/-- One execution at another place that its transaction allows. -/
theorem place_update {s : TriageStore.State ι} {places : ι → Place} {i : ι} {place : Place}
    (h : ∀ j, j ≠ i → PlaceInv s j (places j)) (hplace : PlaceInv s i place) (j : ι) :
    PlaceInv s j (Function.update places i place j) := by
  by_cases hji : j = i
  · subst hji
    rw [Function.update_self]
    exact hplace
  · rw [Function.update_of_ne hji]
    exact h j hji

/-- The store after a statement that commits nothing but a run with its
    entry. -/
theorem EvidenceInv.sent {w : World ι} (h : EvidenceInv w) {i : ι} {a : TriageStore.Statement}
    {store : TriageStore.State ι} {place : Place} (he : TriageStore.Effect w.store i a store)
    (hcommit : a = .commit → ∃ run, w.place i = .appended run) (hplace : PlaceInv store i place) :
    EvidenceInv (w.sent i store place) := by
  refine ⟨place_update (fun j hji => (h.place j).frame he hji) hplace, ?_, ?_, h.rows⟩
  · rcases he.frame.2 with hsame | ⟨ha, _, rfl⟩
    · simp only [World.sent, hsame]
      exact h.paired
    · -- What is committed with the run is the entry about it.
      rcases hcommit ha with ⟨run, hrun⟩
      have hi := h.place i
      rw [hrun] at hi
      rcases view_appended hi with ⟨entry, hagrees, hruns, hlog⟩
      simp only [World.sent, TriageStore.State.commit, Database.committed_commit]
      rw [← TriageStore.State.view, hruns, hlog]
      exact List.rel_append h.paired (List.Forall₂.cons hagrees List.Forall₂.nil)
  · intro runId row hrow
    rcases h.told runId row hrow with ⟨run, hrun, hid, htold⟩
    exact ⟨run, he.grown.subset hrun, hid, htold⟩

/-- Every step keeps the evidence. -/
theorem EvidenceInv.effect {w w' : World ι} {i : ι} (h : EvidenceInv w)
    (he : Effect requests w i w') : EvidenceInv w' := by
  have hi := h.place i
  cases he with
  | move hmoves =>
      exact ⟨place_update (fun j _ => h.place j) (hi.moves hmoves), h.paired, h.told, h.rows⟩
  | @taken startedAt id now keyedAt claim systems place hs hcall hplace =>
      rcases CoreSim.idempotent_eq_ok.mp hcall with ⟨_, hdone⟩
      rw [hs] at hi
      refine ⟨place_update (fun j _ => h.place j) ?_, h.paired, ?_, h.rows.done hdone⟩
      · rcases hplace with rfl | rfl
        · exact hi
        · have hmoves : Moves (requests i) (.started startedAt) (.raised .unavailable) :=
            .fail trivial
          exact hi.moves hmoves
      · -- No status is recorded under the key a claim is taken in under.
        intro runId row hrow
        refine h.told runId row ?_
        rw [← hrow]
        exact (hdone.idempotencyKeys (claimKey_ne_statusKey _ _).symm).symm
  | @told run now keyedAt claim systems place hs hcall hplace =>
      rcases CoreSim.idempotent_eq_ok.mp hcall with ⟨_, hdone⟩
      rw [hs] at hi
      refine ⟨place_update (fun j _ => h.place j) ?_, h.paired, ?_, h.rows.done hdone⟩
      · have hmoves : Moves (requests i) (.recorded run) (.raised .unavailable) := .fail trivial
        have hover : ¬ (w.store.session i).Open ∧ w.store.db.pending i = [] := hi.moves hmoves
        rcases hplace with rfl | rfl
        · exact hover
        · exact hover
      · intro runId row hrow
        -- Only the run itself records under its key.
        by_cases hid : runId = run.runId
        · subst hid
          rcases told_of_done h.rows hdone hrow with hbefore | htold
          · exact h.told _ row hbefore
          · exact ⟨run, hi.2.2, rfl, htold⟩
        · refine h.told runId row ?_
          rw [← hrow]
          exact (hdone.idempotencyKeys fun heq => hid (statusKey_inj heq)).symm
  | sent hsends he hfine =>
      refine h.sent he ?_ (hi.sent (sent_of_effect hi hsends he hfine))
      rintro rfl
      exact appended_of_commit hsends
  | sentFailed hsends he hfailed =>
      refine h.sent he ?_ hfailed
      rintro rfl
      exact appended_of_commit hsends
  | commitLost hs he => exact h.sent he (fun _ => ⟨_, hs⟩) (ended_of_effect he (Or.inl rfl))
  | statementFails _ he => exact h.sent he nofun (failed_of_effect he)
  | rollback _ he => exact h.sent he nofun (ended_of_effect he (Or.inr rfl))
  | crashOpen _ he => exact h.sent he nofun (ended_of_effect he (Or.inr rfl))
  | crash _ hclosed =>
      exact ⟨place_update (fun j _ => h.place j) ⟨hclosed, hi.pending_nil hclosed⟩, h.paired,
        h.told, h.rows⟩

/-- The evidence is in order wherever the executions get to. -/
theorem evidence_of_reachable {policies : Str → Option Policy} {w : World ι}
    (h : (machine requests policies).Reachable w) : EvidenceInv w := by
  refine h.induct ?_ ?_
  · rintro w rfl
    exact ⟨fun _ => ⟨rfl, rfl⟩, List.Forall₂.nil, nofun, nofun⟩
  · rintro w ⟨i, a⟩ w' hw hstep
    exact hw.effect (effect_of_machine hstep)

/-- Along any run the committed runs stay as they are, and more come after
    them. -/
theorem runs_grown {policies : Str → Option Policy} {w w' : World ι} {as : List (ι × Action)}
    (h : (machine requests policies).Reachable w)
    (hrun : (machine requests policies).run w as = some w') :
    w.store.db.committed.triageRuns <+: w'.store.db.committed.triageRuns := by
  refine h.run_rel (R := fun w w' : World ι =>
    w.store.db.committed.triageRuns <+: w'.store.db.committed.triageRuns)
    (fun _ => List.prefix_refl _) (fun _ _ _ => List.IsPrefix.trans) ?_ hrun
  rintro w ⟨i, a⟩ w' _ hstep
  rcases (effect_of_machine hstep).store with hsame | ⟨b, he⟩
  · rw [hsame]
  · exact he.grown

/-- Wherever any number of executions get to, whatever failed and whichever of
    them were for one run, the committed runs and the committed entries are
    paired one to one with what agrees on everything both of them say; and
    wherever they go on to, the runs there are still there unchanged. -/
theorem paired_of_run {policies : Str → Option Policy} {w w' : World ι}
    {as bs : List (ι × Action)}
    (hw : (machine requests policies).run (start policies) as = some w)
    (hw' : (machine requests policies).run w bs = some w') :
    (∃ pairing : Fin w.store.db.committed.triageRuns.length ≃
        Fin w.store.db.committed.auditLog.length,
      ∀ n, Agrees (w.store.db.committed.triageRuns.get n)
        (w.store.db.committed.auditLog.get (pairing n))) ∧
      w.store.db.committed.triageRuns <+: w'.store.db.committed.triageRuns := by
  have hreachable : (machine requests policies).Reachable w := ⟨start policies, as, rfl, hw⟩
  have hpaired := (evidence_of_reachable hreachable).paired
  refine ⟨⟨finCongr hpaired.length_eq, fun n => ?_⟩, runs_grown hreachable hw'⟩
  exact List.Forall₂.get hpaired n.isLt (hpaired.length_eq ▸ n.isLt)

/-- A claim to run as the first arm. -/
def claimed : RunRequest where
  toClaimSubmission := CoreSim.submitted
  experiment := text "baseline"
  variant := text "control"
  runId := ⟨7, Uuid.seven_valid⟩
  guardVerdicts := []

/-- One execution to its end: the claim is taken in under the first identifier,
    and is triaged. -/
def throughout : List (Unit × Action) :=
  let now : Moment := ⟨.third, .noon⟩
  [.start now, .takeIn true ⟨1, Uuid.one_valid⟩ now now, .decide (text "triaged") none now,
    .connect, .recordRun, .lockChain, .readLast, .insertEntry, .commit, .emit true now now].map
      fun a => ((), a)

set_option maxRecDepth 100000 in
theorem paired_of_run_throughout :
    ∃ w : World Unit, w.store.db.committed.triageRuns.length = 1 ∧
      Nonempty (Fin w.store.db.committed.triageRuns.length ≃
        Fin w.store.db.committed.auditLog.length) := by
  have hrun : (((machine (fun _ => claimed) CoreSim.Tables.seeded.policies).run
      (start CoreSim.Tables.seeded.policies) throughout).map
        fun w => w.store.db.committed.triageRuns.length) = some 1 := by decide +kernel
  rcases Option.map_eq_some_iff.mp hrun with ⟨w, hw, hlength⟩
  rcases (paired_of_run hw (Machine.run_nil w)).1 with ⟨pairing, _⟩
  exact ⟨w, hlength, ⟨pairing⟩⟩

/-- A run of the one list has its entry in the other. -/
theorem exists_entry {runs : List TriageRun} {entries : List Audit.AuditEntry}
    (h : List.Forall₂ Agrees runs entries) {run : TriageRun} (hrun : run ∈ runs) :
    ∃ entry ∈ entries, Agrees run entry := by
  induction h with
  | nil => cases hrun
  | cons hagrees _ ih =>
      rcases List.mem_cons.mp hrun with rfl | hrest
      · exact ⟨_, List.mem_cons_self, hagrees⟩
      · rcases ih hrest with ⟨entry, hentry, hagrees'⟩
        exact ⟨entry, List.mem_cons_of_mem _ hentry, hagrees'⟩

/-- Wherever any number of executions get to, whatever failed, crashed or was
    lost and whichever of them were for one run: if the surrounding systems hold
    a transition recorded under a run's status key, on a claim and to a status,
    then a run with that identifier, claim and status is committed, and an entry
    about it. -/
theorem evidence_of_status {policies : Str → Option Policy} {w : World ι}
    (h : (machine requests policies).Reachable w) {runId : Uuid} {row : CoreSim.KeyRow}
    {claim : Claim} (hrow : w.systems.idempotencyKeys (statusKey runId) = some row)
    (hclaim : (jsonb.apply row.response).bind Claim.wire.decode = some claim) :
    ∃ run ∈ w.store.db.committed.triageRuns,
      (run.runId = runId ∧ run.claimId = claim.claimId ∧ run.status = claim.status) ∧
        ∃ entry ∈ w.store.db.committed.auditLog, Agrees run entry := by
  have hinv := evidence_of_reachable h
  rcases hinv.told runId row hrow with
    ⟨run, hrun, hid, told, now, rfl, hclaimId, hstatus, hstorable⟩
  -- What the key recorded is read back as the claim the systems answered with.
  have hvalidated : (jsonb.apply (CoreSim.Answer.claim told).modelDump).bind
      (statusRequest run).call.validate = some (.claim claim) := by
    rcases Option.bind_eq_some_iff.mp hclaim with ⟨kept, hkept, hdecoded⟩
    exact Option.bind_eq_some_iff.mpr
      ⟨kept, hkept, Option.map_eq_some_iff.mpr ⟨claim, hdecoded, rfl⟩⟩
  have hread : CoreSim.Answer.claim claim = .claim told :=
    CoreSim.eq_of_validate hstorable hvalidated
  cases hread
  exact ⟨run, hrun, ⟨hid, hclaimId.symm, hstatus.symm⟩, exists_entry hinv.paired hrun⟩

set_option maxRecDepth 100000 in
theorem evidence_of_status_throughout :
    ∃ w : World Unit, ∃ run ∈ w.store.db.committed.triageRuns,
      run.runId = claimed.runId ∧ run.status = .triaged ∧
        ∃ entry ∈ w.store.db.committed.auditLog, Agrees run entry := by
  have hrun : (((machine (fun _ => claimed) CoreSim.Tables.seeded.policies).run
      (start CoreSim.Tables.seeded.policies) throughout).bind
        fun w => (w.systems.idempotencyKeys (statusKey claimed.runId)).bind fun row =>
          ((jsonb.apply row.response).bind Claim.wire.decode).map fun claim => claim.status) =
      some .triaged := by decide +kernel
  rcases Option.bind_eq_some_iff.mp hrun with ⟨w, hw, hrow⟩
  rcases Option.bind_eq_some_iff.mp hrow with ⟨row, hrow, hclaim⟩
  rcases Option.map_eq_some_iff.mp hclaim with ⟨claim, hclaim, hstatus⟩
  have hreachable : (machine (fun _ => claimed) CoreSim.Tables.seeded.policies).Reachable w :=
    ⟨start CoreSim.Tables.seeded.policies, throughout, rfl, hw⟩
  rcases evidence_of_status hreachable hrow hclaim with
    ⟨run, hmem, ⟨hid, _, hruns⟩, entry, hentry, hagrees⟩
  exact ⟨w, run, hmem, hid, hruns.trans hstatus, entry, hentry, hagrees⟩

end Runs

end Pipeline

end ClaimTriage
