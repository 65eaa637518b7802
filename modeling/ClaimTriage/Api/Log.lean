import ClaimTriage.Api.Stack
import Mathlib.Data.List.Forall2

/-!
# The Log behind the Entry Point

What the triager has on record after any number of submissions at the entry point,
one after the other, whatever becomes of each of them.

A submission is screened, and asked for over the wire if it is let in; the
pipeline takes the claim to the systems, decides, and records the run and its
entry in one transaction, which may fail anywhere. So a submission adds at most
one run, with one entry behind it, and only if every check let it in; then the
run is the one it asked for, with the verdicts its own documents were given, on
the claim the systems answered. And whoever is told a result has its run on
record.

Over a whole sequence of submissions the runs on record are therefore those of
some of them, in their order, and the log is the chain of their entries.

## Main definitions

* `Occasion`, `Deployment`: A submission with all it is made over, and what is there
  when it is.
* `served`, `next`, `turns`: What comes of a submission, and of one after the other.
* `Evidences`: A run on record is the one a submission asked for.

## Theorems

* `admits_of_calls`: What is asked for was let in.
* `rows_of_served`: What a submission adds to the rows.
* `log_of_turns`: What is on record after any number of submissions.
-/

namespace ClaimTriage

open Theory Text Calendar Recency

namespace Stack

open Boundary (Raised)
open Transaction (withRun)

/-! ### One submission -/

/-- What is asked for was let in, and nothing else is asked for. -/
theorem admits_of_calls {app : Surface.App} {request : Surface.Request}
    {buckets : Table Str Bucket} (h : (Surface.postClaims app request buckets).calls ≠ []) :
    ∃ documents takenIn verdicts, Surface.Admits app request buckets documents takenIn verdicts ∧
      ¬ Surface.Unreadable request := by
  rcases Surface.screenSubmissions_cases app request buckets with
    ⟨_, _, _, hscreened⟩ | ⟨_, _, hscreened⟩ | ⟨_, _, _, _, hscreened⟩ |
      ⟨htoken, hread, hwithin, hscreened⟩
  all_goals rw [Surface.postClaims_of_screened hscreened] at h
  · exact absurd rfl h
  · exact absurd rfl h
  · exact absurd rfl h
  · simp only [Surface.route] at h
    cases hbody : request.body with
    | unparsed statusCode detail =>
        rw [hbody] at h
        exact absurd rfl h
    | unbound detail =>
        rw [hbody] at h
        exact absurd rfl h
    | form claim documents =>
        rw [hbody] at h
        simp only [Surface.submitClaim] at h
        rcases Surface.admitted_cases app claim documents request.runId with
          ⟨detail, _, herror⟩ | ⟨takenIn, hvalid, ⟨raised, _, herror⟩ |
            ⟨verdicts, hscreened, ⟨filename, verdict, _, herror⟩ | ⟨hnone, hok⟩⟩⟩
        · rw [herror] at h
          exact absurd rfl h
        · rw [herror] at h
          exact absurd rfl h
        · rw [herror] at h
          exact absurd rfl h
        · exact ⟨documents, takenIn, verdicts, ⟨htoken, hwithin, ⟨claim, hbody, hvalid⟩,
            hscreened, Ingress.firstRefusal_eq_none_iff.mp hnone⟩, hread⟩

/-- What is raised is answered with no result. -/
theorem handled_ne_created (raised : Raised) (result : RunResult) :
    Boundary.handled raised ≠ .created result := by
  have hrefusal : ∀ statusCode code detail retryAfter,
      Boundary.refusal statusCode code detail retryAfter ≠ .created result := by
    intro statusCode code detail retryAfter
    unfold Boundary.refusal
    split <;> exact nofun
  cases raised with
  | other => exact nofun
  | unavailable | refused | beforeRoute | outsideWire => exact hrefusal _ _ _ _

/-- What is asked for nowhere is answered with no result. -/
theorem not_created_of_calls {app : Surface.App} {request : Surface.Request}
    {buckets : Table Str Bucket} (h : (Surface.postClaims app request buckets).calls = [])
    (result : RunResult) :
    (Surface.postClaims app request buckets).response ≠ .created result := by
  rcases Surface.screenSubmissions_cases app request buckets with
    ⟨_, _, _, hscreened⟩ | ⟨_, _, hscreened⟩ | ⟨_, _, _, _, hscreened⟩ |
      ⟨htoken, hread, hwithin, hscreened⟩
  all_goals rw [Surface.postClaims_of_screened hscreened] at h ⊢
  · exact nofun
  · exact nofun
  · exact nofun
  · simp only [Surface.route] at h ⊢
    cases hbody : request.body with
    | unparsed statusCode detail => exact handled_ne_created (.beforeRoute statusCode detail) result
    | unbound detail => exact handled_ne_created (.outsideWire detail) result
    | form claim documents =>
        rw [hbody] at h
        simp only [Surface.submitClaim] at h ⊢
        cases hadmitted : Surface.admitted app claim documents request.runId with
        | error raised => exact handled_ne_created _ _
        | ok asked =>
            rw [hadmitted] at h
            cases h

/-- A response without a result is told as something raised. -/
theorem intake_ne_ok {read : Str → Str} {frames : Nat} (hframes : 1 ≤ frames) {l : Value.Layout}
    {response : Boundary.Response} (h : ∀ result, response ≠ .created result)
    (result : RunResult) : intake read frames l response ≠ .ok result := by
  cases response with
  | created other => exact absurd rfl (h other)
  | crashed =>
      rw [intake_crashed]
      rintro ⟨⟩
  | failed statusCode error retryAfter =>
      have hread := Json.readText_written read l hframes (Relay.plain_error error)
      simp only [intake, Relay.responded, Relay.answered, Relay.document, hread, ne_eq,
        Relay.refusal, Boundary.BoundaryError.wire.decode_encode, Relay.apart_result error]
      split
      · split <;> rintro ⟨⟩
      · rintro ⟨⟩

section Turns

variable (read : Str → Str) (frames : Nat) (l : Value.Layout) (rejection : Str → Str)
  (app : Surface.App) (n : Nat)

/-- A submission, and what the run it may ask for is made over. -/
structure Occasion where
  request : Surface.Request
  wiring : Wiring

/-- What there is when a submission is made: the limiters' buckets, and the triager's
    store. -/
structure Deployment where
  buckets : Table Str Bucket
  store : Transaction.Store

/-- The store once a run has been asked for of the triager, which is reached if the
    run can be written. -/
def reached (p : Wiring) (store : Transaction.Store) (asked : RunRequest) : Transaction.Store :=
  if Relay.Carried asked then (run p store asked).2 else store

/-- A submission served, with so many boundaries between the entry point and the
    pipeline. -/
def served (d : Deployment) (o : Occasion) : Surface.Served :=
  Surface.postClaims (deployed read frames l rejection app
    (fun asked => (run o.wiring d.store asked).1) n) o.request d.buckets

/-- What there is after it. -/
def next (d : Deployment) (o : Occasion) : Deployment where
  buckets := (served read frames l rejection app n d o).buckets
  store := (served read frames l rejection app n d o).calls.foldl (reached o.wiring) d.store

/-- A submission's turn: what it found, and what its caller was told. -/
structure Turn where
  occasion : Occasion
  found : Deployment
  told : Except Raised RunResult

/-- Submissions made one after the other. -/
def turns : Deployment → List Occasion → List Turn
  | _, [] => []
  | d, o :: os =>
    ⟨o, d, intake read frames l (served read frames l rejection app n d o).response⟩ ::
      turns (next read frames l rejection app n d o) os

/-- A run on record is the one a submission asked for: every check let it in, its
    documents were given these verdicts, and this is the claim and the status the run
    came to. -/
def Evidences (app : Surface.App) (recordedRun : TriageRun) (turn : Turn) : Prop :=
  ∃ documents takenIn verdicts,
    Surface.Admits app turn.occasion.request turn.found.buckets documents takenIn verdicts ∧
      Records turn.occasion.wiring (asked turn.occasion.request takenIn verdicts) recordedRun

variable {read} {frames} {l} {rejection} {app} {n}

/-- What a submission adds to the rows: nothing, and then it is told no result, or the
    run it asked for. -/
theorem rows_of_served (hframes : 5 ≤ frames) (d : Deployment) (o : Occasion) :
    ((next read frames l rejection app n d o).store.committed.rows = d.store.committed.rows ∧
      ∀ result,
        intake read frames l (served read frames l rejection app n d o).response ≠ .ok result) ∨
    ∃ recordedRun, (∀ told, Evidences app recordedRun ⟨o, d, told⟩) ∧
      (∀ r ∈ d.store.committed.rows.triageRuns, r.runId ≠ recordedRun.runId) ∧
      (next read frames l rejection app n d o).store.committed.rows =
        withRun d.store.committed.rows recordedRun ∧
      ∀ result,
        intake read frames l (served read frames l rejection app n d o).response = .ok result →
          ∃ status, result = Pipeline.resultOf recordedRun status := by
  have hone : 1 ≤ frames := (by decide : 1 ≤ 5).trans hframes
  by_cases hcalls : (served read frames l rejection app n d o).calls = []
  · refine Or.inl ⟨?_, intake_ne_ok hone (not_created_of_calls hcalls)⟩
    simp only [next, hcalls, List.foldl_nil]
  · rcases admits_of_calls hcalls with ⟨documents, takenIn, verdicts, hadmits, hread⟩
    have hserved : (served read frames l rejection app n d o).calls =
          [asked o.request takenIn verdicts] ∧
        intake read frames l (served read frames l rejection app n d o).response = _ :=
      postClaims_of_admits hread hadmits
    -- What lets a submission in is the same over any boundary.
    have hevidences : ∀ recordedRun told, Records o.wiring (asked o.request takenIn verdicts)
        recordedRun → Evidences app recordedRun ⟨o, d, told⟩ := fun _ _ hrecords =>
      ⟨documents, takenIn, verdicts,
        ⟨hadmits.token, hadmits.within, hadmits.claim, hadmits.screened, hadmits.clean⟩, hrecords⟩
    have hstore : (next read frames l rejection app n d o).store =
        reached o.wiring d.store (asked o.request takenIn verdicts) := by
      simp only [next, hserved.1, List.foldl_cons, List.foldl_nil]
    rw [hserved.2, hstore]
    by_cases hcarried : Relay.Carried (asked o.request takenIn verdicts)
    · have hsubmit : (deployed read frames l rejection app
          (fun asked => (run o.wiring d.store asked).1) n).submit
            (asked o.request takenIn verdicts) = _ :=
        Relay.forward_iterate hframes _ hcarried n
      rw [hsubmit, Relay.hop_eq hone hone (by decide) Relay.plain_result Relay.apart_result,
        Relay.relayed_relayed, reached, if_pos hcarried]
      -- A result that is told is the run's.
      have htold : ∀ result, Relay.relayed 201 RunResult.wire
          (run o.wiring d.store (asked o.request takenIn verdicts)).1 = .ok result →
          (run o.wiring d.store (asked o.request takenIn verdicts)).1 = .ok result := by
        intro result h
        cases hrun : (run o.wiring d.store (asked o.request takenIn verdicts)).1 with
        | error raised =>
            rw [hrun] at h
            cases h
        | ok other =>
            rw [hrun, Relay.relayed] at h
            split at h
            · exact h
            · cases h
      rcases rows_of_run o.wiring d.store (asked o.request takenIn verdicts) with
        ⟨hsame, hne⟩ | ⟨recordedRun, hrecords, hfresh, hadded, hresult⟩
      · exact Or.inl ⟨hsame, fun result h => hne result (htold result h)⟩
      · exact Or.inr ⟨recordedRun, fun told => hevidences _ told hrecords, hfresh, hadded,
          fun result h => hresult result (htold result h)⟩
    · have hsubmit : (deployed read frames l rejection app
          (fun asked => (run o.wiring d.store asked).1) n).submit
            (asked o.request takenIn verdicts) = .error .other := by
        have hunwritten : ∀ pipeline, Relay.forward read frames l rejection pipeline
            (asked o.request takenIn verdicts) = .error .other := fun pipeline => by
          rw [Relay.forward, Relay.submit, if_neg (mt Json.encodable_written.mp hcarried)]
          rfl
        simp only [deployed, withSubmit, Function.iterate_succ_apply', hunwritten]
      rw [hsubmit, Relay.hop_eq hone hone (by decide) Relay.plain_result Relay.apart_result,
        reached, if_neg hcarried]
      exact Or.inl ⟨rfl, by rintro _ ⟨⟩⟩

/-- What is on record after submissions: the runs there were and those of some of the
    submissions, in their order, each under an identifier of its own; the log is the
    chain of their entries behind those there were, and verifying it finds nothing; and
    whoever was told a result has the run it is of on record. -/
structure OnRecord (app : Surface.App) (before after : TriageStore.Tables)
    (contents : List Audit.AuditEntryContent) (turns : List Turn) (runs : List TriageRun) :
    Prop where
  added : after.triageRuns = before.triageRuns ++ runs
  fresh : ∀ run ∈ runs, ∀ r ∈ before.triageRuns, r.runId ≠ run.runId
  once : (runs.map (·.runId)).Nodup
  log : after.auditLog = Audit.logged (contents ++ runs.map Pipeline.contentOf)
  evidenced : List.SublistForall₂ (Evidences app) runs turns
  told : ∀ turn ∈ turns, ∀ result, turn.told = .ok result →
    ∃ run ∈ runs, Evidences app run turn ∧ ∃ status, result = Pipeline.resultOf run status

theorem OnRecord.nil {before : TriageStore.Tables} {contents : List Audit.AuditEntryContent}
    (hlog : before.auditLog = Audit.logged contents) :
    OnRecord app before before contents [] [] where
  added := (List.append_nil _).symm
  fresh := List.forall_mem_nil _
  once := List.nodup_nil
  log := by rw [List.map_nil, List.append_nil, hlog]
  evidenced := .nil
  told := List.forall_mem_nil _

/-- A submission that adds nothing. -/
theorem OnRecord.skip {before after : TriageStore.Tables}
    {contents : List Audit.AuditEntryContent} {turn : Turn} {turns : List Turn}
    {runs : List TriageRun} (h : OnRecord app before after contents turns runs)
    (htold : ∀ result, turn.told ≠ .ok result) :
    OnRecord app before after contents (turn :: turns) runs where
  added := h.added
  fresh := h.fresh
  once := h.once
  log := h.log
  evidenced := .cons_right h.evidenced
  told := List.forall_mem_cons.mpr ⟨fun result hresult => absurd hresult (htold result), h.told⟩

/-- A submission that adds its run. -/
theorem OnRecord.cons {before after : TriageStore.Tables}
    {contents : List Audit.AuditEntryContent} {turn : Turn} {turns : List Turn}
    {run : TriageRun} {runs : List TriageRun}
    (h : OnRecord app (withRun before run) after (contents ++ [Pipeline.contentOf run]) turns runs)
    (hevidences : Evidences app run turn) (hfresh : ∀ r ∈ before.triageRuns, r.runId ≠ run.runId)
    (htold : ∀ result, turn.told = .ok result →
      ∃ status, result = Pipeline.resultOf run status) :
    OnRecord app before after contents (turn :: turns) (run :: runs) := by
  have hrows : (withRun before run).triageRuns = before.triageRuns ++ [run] := rfl
  have hlater := h.fresh
  simp only [hrows, List.mem_append, List.mem_singleton] at hlater
  refine ⟨?_, ?_, ?_, ?_, .cons hevidences h.evidenced, ?_⟩
  · rw [h.added, hrows, List.append_assoc, List.singleton_append]
  · exact List.forall_mem_cons.mpr
      ⟨hfresh, fun other hother r hr => hlater other hother r (.inl hr)⟩
  · rw [List.map_cons, List.nodup_cons]
    refine ⟨fun hmem => ?_, h.once⟩
    rcases List.mem_map.mp hmem with ⟨other, hother, heq⟩
    exact hlater other hother run (.inr rfl) heq.symm
  · rw [h.log, List.map_cons, List.append_assoc, List.singleton_append]
  · refine List.forall_mem_cons.mpr
      ⟨fun result hresult => ?_, fun other hother result hresult => ?_⟩
    · exact ⟨run, List.mem_cons_self, hevidences, htold result hresult⟩
    · rcases h.told other hother result hresult with ⟨found, hfound, hrest⟩
      exact ⟨found, List.mem_cons_of_mem _ hfound, hrest⟩

/-- The log of a run's entry behind a log. -/
theorem auditLog_withRun {rows : TriageStore.Tables} {contents : List Audit.AuditEntryContent}
    (hlog : rows.auditLog = Audit.logged contents) (run : TriageRun) :
    (withRun rows run).auditLog = Audit.logged (contents ++ [Pipeline.contentOf run]) := by
  have hlast := TriageStore.last_of_logged ⟨contents, hlog⟩
  rw [Audit.logged_concat, Audit.extend, ← hlog]
  simp only [withRun, TriageStore.Tables.apply, TriageStore.nextEntry, hlast]

/-- What is on record after any number of submissions, made one after the other to an
    entry point in front of a triager with a log of its own, whatever they are,
    wherever their runs fail, and whatever the systems answer them: runs of some of
    them, each of which every check let in, with the verdicts its own documents were
    given, on the claim the systems answered it, in the order of the submissions; a log
    that is the chain of their entries and verifies; and whoever was told a result has
    that run on record. -/
theorem log_of_turns (read : Str → Str) {frames : Nat} (hframes : 5 ≤ frames) (l : Value.Layout)
    (rejection : Str → Str) (app : Surface.App) (n : Nat) (os : List Occasion) (d : Deployment)
    {contents : List Audit.AuditEntryContent}
    (hlog : d.store.committed.rows.auditLog = Audit.logged contents) :
    ∃ runs, OnRecord app d.store.committed.rows
        (os.foldl (next read frames l rejection app n) d).store.committed.rows contents
        (turns read frames l rejection app n d os) runs ∧
      (Audit.verify (os.foldl (next read frames l rejection app n)
        d).store.committed.rows.bySeq).ok = true := by
  have hrecord : ∃ runs, OnRecord app d.store.committed.rows
      (os.foldl (next read frames l rejection app n) d).store.committed.rows contents
      (turns read frames l rejection app n d os) runs := by
    induction os generalizing d contents with
    | nil => exact ⟨[], .nil hlog⟩
    | cons o os ih =>
        rw [List.foldl_cons, turns]
        rcases rows_of_served hframes d o with
          ⟨hsame, hnone⟩ | ⟨run, hevidences, hfresh, hadded, hresult⟩
        · rcases ih (next read frames l rejection app n d o) (hsame ▸ hlog) with ⟨runs, hruns⟩
          rw [hsame] at hruns
          exact ⟨runs, hruns.skip hnone⟩
        · have hafter := auditLog_withRun hlog run
          rw [← hadded] at hafter
          rcases ih (next read frames l rejection app n d o) hafter with ⟨runs, hruns⟩
          rw [hadded] at hruns
          exact ⟨run :: runs, hruns.cons (hevidences _) hfresh hresult⟩
  rcases hrecord with ⟨runs, hruns⟩
  refine ⟨runs, hruns, ?_⟩
  rw [TriageStore.bySeq_of_logged ⟨_, hruns.log⟩, hruns.log]
  exact Audit.verify_logged _

end Turns

section Example

/-- Submissions of a claim on a policy the systems hold. -/
def heldApp : Surface.App :=
  { unknownApp with validate := fun _ => .ok Pipeline.claimed.toIntakeRequest }

/-- One submission, and the same one again. -/
def twice : List Occasion :=
  [⟨unknownRequest, calm⟩, ⟨unknownRequest, calm⟩]

/-- The second one adds nothing to what the first one has on record. -/
theorem log_of_turns_twice :
    ∃ runs, runs.length = 1 ∧ OnRecord heldApp ⟨[], []⟩
      (twice.foldl (next id 5 Value.compact id heldApp 1)
        ⟨[], Transaction.fresh⟩).store.committed.rows []
      (turns id 5 Value.compact id heldApp 1 ⟨[], Transaction.fresh⟩ twice) runs := by
  have hlength : (twice.foldl (next id 5 Value.compact id heldApp 1)
      ⟨[], Transaction.fresh⟩).store.committed.rows.triageRuns.length = 1 := by decide +kernel
  have hlog : Transaction.fresh.committed.rows.auditLog = Audit.logged [] := rfl
  rcases log_of_turns id le_rfl Value.compact id heldApp 1 twice ⟨[], Transaction.fresh⟩ hlog with
    ⟨runs, hruns, _⟩
  refine ⟨runs, ?_, hruns⟩
  rw [hruns.added] at hlength
  exact hlength

end Example

end Stack

end ClaimTriage
