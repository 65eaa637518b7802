import ClaimTriage.Schema
import ClaimTriage.Theory.Except
import ClaimTriage.Triage.Pipeline

/-!
# One Transaction

What becomes of the triager's transaction where the database fails.

A transaction is a connection, the schema if nobody applied it before, the
writes, and a commit. The connection is closed on the way out, and rolled back
if something was raised, so what was sent before that is gone: only a commit
that fails may have taken.

What the driver raises for a failed database is raised as the store's own
exception around two of the four. Opening the connection is one, for the errors
of operation and not those of the interface, and the writes are the other. What
the schema's statements and the commit raise passes both by, and so whoever
catches the store's exception (`answered`).

## Main definitions

* `Condition`: Where the database fails, and how.
* `Body`: The writes of a transaction.
* `transaction`: What is raised, and what is there afterwards.
* `answered`: What the pipeline answers for what is raised.
* `Unavailable`: What the caller is promised where the database fails.
* `withRun`: The rows with a run and its entry.

## Theorems

* `committed_of_error`: What failed changed nothing, unless it was the commit.
* `unavailable_iff`: The promise is kept exactly at the places that are
  translated.
* `rows_of_transaction`: What a transaction of the pipeline adds to the rows.
-/

namespace ClaimTriage

open Theory Text Calendar Failing

namespace Transaction

/-! ### A database that may fail -/

/-- The driver's errors for a database that failed. -/
inductive DriverError where
  | operational
  | interface
  deriving DecidableEq

/-- What is raised: by the driver for a database that failed, for what was asked
    of one that did not, or by the store for the former. -/
inductive Raised where
  | failed (error : DriverError)
  | refused
  | storeUnavailable
  deriving DecidableEq

/-- Where a transaction uses the database: opening the connection, a statement of
    the schema, a statement of the writes, and committing. -/
inductive Place where
  | connect
  | schema (n : Nat)
  | statement (n : Nat)
  | commit
  deriving DecidableEq

/-- What was raised, and where the database failed if it did. -/
structure Escape where
  raised : Raised
  place : Option Place
  deriving DecidableEq

/-- What is in the database: the tables and columns there are, and the rows. -/
structure Data where
  catalog : List Schema.Object
  rows : TriageStore.Tables

/-- The store: whether it applied its schema, and what its database holds. -/
structure Store where
  schemaApplied : Bool
  committed : Data

/-- Where the database fails, and with what; and whether a commit that fails has
    taken. -/
structure Condition where
  fails : Place → Option DriverError
  commitTook : Bool

/-- Something is sent, and gets there unless the database fails. -/
def Condition.sends (c : Condition) (place : Place) : Except Escape Unit :=
  match c.fails place with
  | some error => .error ⟨.failed error, some place⟩
  | none => .ok ()

/-- What is asked of a database that did not fail is refused. -/
def refused : Escape :=
  ⟨.refused, none⟩

/-- A statement refers to what is there. -/
def refers (d : Data) (objects : List Schema.Object) : Except Escape Unit :=
  if objects ⊆ d.catalog then .ok () else .error refused

/-! ### The writes -/

/-- The schema, unless the store has applied it. -/
def applySchema (c : Condition) (s : Store) : Except Escape Data :=
  if s.schemaApplied then .ok s.committed
  else Schema.Store.triage.schema.zipIdx.foldlM (fun d statement => do
    c.sends (.schema statement.2)
    refers d statement.1.needs
    return { d with catalog := Schema.apply d.catalog statement.1 }) s.committed

/-- The run inserted, in the statement of this number. -/
def recordRun (c : Condition) (n : Nat) (d : Data) (run : TriageRun) : Except Escape Data :=
  -- A value that cannot be written raises before anything is sent.
  if TriageStore.RunTexts run then do
    c.sends (.statement n)
    refers d [.table (text "triage_runs"), .column (text "triage_runs") (text "guard_verdicts")]
    if d.rows.AcceptsRun run then return { d with rows := d.rows.apply (.run run) }
    else throw refused
  else .error refused

/-- An entry linked onto the chain, in three statements from this number on. -/
def appendEntry (c : Condition) (n : Nat) (d : Data) (content : Audit.AuditEntryContent) :
    Except Escape (Audit.AuditEntry × Data) := do
  c.sends (.statement n)
  c.sends (.statement (n + 1))
  refers d [.table (text "audit_log")]
  let entry := TriageStore.nextEntry d.rows.last content
  if TriageStore.EntryTexts entry then do
    c.sends (.statement (n + 2))
    refers d [.column (text "audit_log") (text "guard_verdicts")]
    if d.rows.AcceptsEntry entry then
      return (entry, { d with rows := d.rows.apply (.entry entry) })
    else throw refused
  else throw refused

/-- The writes made inside a transaction, where what is written may depend on the
    entries appended before. -/
inductive Body where
  | done
  | recordRun (run : TriageRun) (rest : Body)
  | appendEntry (content : Audit.AuditEntryContent) (rest : Audit.AuditEntry → Body)

/-- The writes, the next statement being of this number. -/
def Body.perform (c : Condition) : Nat → Data → Body → Except Escape Data
  | _, d, done => .ok d
  | n, d, recordRun run rest => do
    let d ← Transaction.recordRun c n d run
    rest.perform c (n + 1) d
  | n, d, appendEntry content rest => do
    let (entry, d) ← Transaction.appendEntry c n d content
    (rest entry).perform c (n + 3) d

/-! ### The transaction -/

/-- The driver's errors that are caught are raised as the store's own. -/
def translated (caught : List DriverError) (e : Escape) : Escape :=
  match e.raised with
  | .failed error => if error ∈ caught then { e with raised := .storeUnavailable } else e
  | _ => e

/-- One connection, one commit: what is raised, and what is there afterwards. -/
def transaction (c : Condition) (s : Store) (body : Body) : Except Escape Unit × Store :=
  match c.sends .connect with
  | .error e => (.error (translated [.operational] e), s)
  | .ok () =>
    match applySchema c s with
    | .error e => (.error e, s)
    | .ok d =>
      -- The flag is set whatever becomes of the transaction.
      let opened := { s with schemaApplied := true }
      match body.perform c 0 d with
      | .error e => (.error (translated [.operational, .interface] e), opened)
      | .ok d =>
        match c.sends .commit with
        | .error e => (.error e, if c.commitTook then { opened with committed := d } else opened)
        | .ok () => (.ok (), { opened with committed := d })

/-- The state change and its entry, as the pipeline records them. -/
def recorded (run : TriageRun) : Body :=
  .recordRun run (.appendEntry (Pipeline.contentOf run) fun _ => .done)

/-- What the pipeline answers for what its transaction raised. -/
def answered : Raised → Pipeline.Failure
  | .storeUnavailable => .unavailable
  | _ => .defect

/-- A place whose errors are raised as the store's own. -/
def Place.Translates (error : DriverError) : Place → Prop
  | connect => error = .operational
  | statement _ => True
  | schema _ | commit => False

instance (error : DriverError) (place : Place) : Decidable (place.Translates error) := by
  cases place <;> simp only [Place.Translates] <;> infer_instance

/-- What a caller is promised where the database fails: that the store is
    unavailable is what is raised, and what the pipeline answers; and nothing is
    changed, unless it was the commit that failed. -/
structure Unavailable (s : Store) (place : Place) (out : Except Escape Unit × Store) : Prop where
  raised : ∀ e, out.1 = .error e → e.raised = .storeUnavailable
  answered : ∀ e, out.1 = .error e → answered e.raised = .unavailable
  unchanged : place ≠ .commit → out.2.committed = s.committed

section Outcomes

variable {c : Condition} {s : Store} {body : Body}

/-- If the database failed, it was at one of these places, and what is raised is the
    driver's error for it. -/
def FailedAt (c : Condition) (Q : Place → Prop) (e : Escape) : Prop :=
  ∀ place, e.place = some place → Q place ∧ ∃ error, c.fails place = some error ∧
    e.raised = .failed error

theorem failedAt_refused {Q : Place → Prop} : FailedAt c Q refused := nofun

theorem ends_sends {α : Type} {Q : Place → Prop} {P : α → Prop} {place : Place} (hplace : Q place)
    {f : Unit → Except Escape α} (hf : Ends (FailedAt c Q) P (f ())) :
    Ends (FailedAt c Q) P (c.sends place >>= f) := by
  rw [ends_bind]
  unfold Condition.sends
  split
  · rename_i error hfails
    rintro _ ⟨⟩
    exact ⟨hplace, error, hfails, rfl⟩
  · exact hf

theorem ends_refers {α : Type} {Q : Place → Prop} {P : α → Prop} {d : Data}
    {objects : List Schema.Object} {f : Unit → Except Escape α}
    (hf : Ends (FailedAt c Q) P (f ())) :
    Ends (FailedAt c Q) P (refers d objects >>= f) := by
  rw [ends_bind]
  unfold refers
  split
  · exact hf
  · exact failedAt_refused

/-- Applying the schema fails at a statement of the schema. -/
theorem ends_applySchema :
    Ends (FailedAt c fun place => ∃ n, place = .schema n) (fun _ => True) (applySchema c s) := by
  unfold applySchema
  split
  · trivial
  · generalize Schema.Store.triage.schema.zipIdx = statements
    generalize s.committed = d
    induction statements generalizing d with
    | nil => trivial
    | cons statement rest ih =>
        rw [List.foldlM_cons, ends_bind]
        exact ends_sends ⟨_, rfl⟩ (ends_refers (ih _))

/-- The place is a statement of the writes. -/
def OfWrites (place : Place) : Prop :=
  ∃ n, place = .statement n

theorem ends_recordRun {n : Nat} {d : Data} {run : TriageRun} :
    Ends (FailedAt c OfWrites) (fun _ => True) (recordRun c n d run) := by
  unfold recordRun
  split
  · refine ends_sends ⟨_, rfl⟩ (ends_refers ?_)
    split
    · trivial
    · exact failedAt_refused
  · exact failedAt_refused

theorem ends_appendEntry {n : Nat} {d : Data} {content : Audit.AuditEntryContent} :
    Ends (FailedAt c OfWrites) (fun _ => True) (appendEntry c n d content) := by
  refine ends_sends ⟨_, rfl⟩ (ends_sends ⟨_, rfl⟩ (ends_refers ?_))
  simp only
  split
  · refine ends_sends ⟨_, rfl⟩ (ends_refers ?_)
    split
    · trivial
    · exact failedAt_refused
  · exact failedAt_refused

/-- The writes fail at a statement of theirs. -/
theorem ends_perform (n : Nat) (d : Data) :
    Ends (FailedAt c OfWrites) (fun _ => True) (body.perform c n d) := by
  induction body generalizing n d with
  | done => trivial
  | recordRun run rest ih =>
      rw [Body.perform, ends_bind]
      exact (ends_congr fun d => iff_of_true trivial (ih (n + 1) d)).mp ends_recordRun
  | appendEntry content rest ih =>
      rw [Body.perform, ends_bind]
      exact (ends_congr fun written => iff_of_true trivial (ih written.1 (n + 3) written.2)).mp
        ends_appendEntry

/-- What a transaction comes to, by where it ended: opening the connection, applying
    the schema, in the writes, committing, or not before its end. -/
inductive Outcome (c : Condition) (s : Store) : Except Escape Unit × Store → Prop
  | connect {error : DriverError} : c.fails .connect = some error →
      Outcome c s (.error (translated [.operational] ⟨.failed error, some .connect⟩), s)
  | schema {e : Escape} : FailedAt c (fun place => ∃ n, place = .schema n) e →
      Outcome c s (.error e, s)
  | writes {e : Escape} : FailedAt c OfWrites e →
      Outcome c s (.error (translated [.operational, .interface] e),
        { s with schemaApplied := true })
  | commit {error : DriverError} {after : Store} : c.fails .commit = some error →
      Outcome c s (.error ⟨.failed error, some .commit⟩, after)
  | done {after : Store} : Outcome c s (.ok (), after)

theorem sends_eq_error {place : Place} {e : Escape} (h : c.sends place = .error e) :
    ∃ error, c.fails place = some error ∧ e = ⟨.failed error, some place⟩ := by
  unfold Condition.sends at h
  split at h
  · rename_i error hfails
    cases h
    exact ⟨error, hfails, rfl⟩
  · cases h

/-- Every transaction comes to one of these. -/
theorem outcome_transaction (c : Condition) (s : Store) (body : Body) :
    Outcome c s (transaction c s body) := by
  unfold transaction
  -- The cases are the places it can stop at, in the order it comes to them.
  cases hconnect : c.sends .connect with
  | error e =>
      rcases sends_eq_error hconnect with ⟨error, hfails, rfl⟩
      exact .connect hfails
  | ok _ =>
      cases hschema : applySchema c s with
      | error e =>
          have hfailed := ends_applySchema (c := c) (s := s)
          rw [hschema] at hfailed
          exact .schema hfailed
      | ok d =>
          cases hwrites : body.perform c 0 d with
          | error e =>
              have hfailed := @ends_perform c body 0 d
              rw [hwrites] at hfailed
              simp only [hwrites]
              exact .writes hfailed
          | ok d' =>
              simp only [hwrites]
              cases hcommit : c.sends .commit with
              | error e =>
                  rcases sends_eq_error hcommit with ⟨error, hfails, rfl⟩
                  exact .commit hfails
              | ok _ => exact .done

theorem place_translated (caught : List DriverError) (e : Escape) :
    (translated caught e).place = e.place := by
  unfold translated
  split
  · split <;> rfl
  · rfl

/-- What is caught is raised as the store's own, and nothing else is. -/
theorem raised_translated {caught : List DriverError} {e : Escape} {error : DriverError}
    (h : e.raised = .failed error) :
    (translated caught e).raised = .storeUnavailable ↔ error ∈ caught := by
  unfold translated
  rw [h]
  by_cases hmem : error ∈ caught
  · simp only [hmem, if_true]
  · simp only [hmem, if_false, h, reduceCtorEq]

/-- What failed changed nothing, unless it was the commit. -/
theorem committed_of_error {e : Escape} (h : (transaction c s body).1 = .error e)
    (hplace : e.place ≠ some .commit) :
    (transaction c s body).2.committed = s.committed := by
  have hout := outcome_transaction c s body
  generalize transaction c s body = out at h hout
  cases hout with
  | connect | schema | writes => rfl
  | commit =>
      cases h
      exact absurd rfl hplace
  | done => cases h

/-- Only the store's own exception is answered as the store's being unavailable. -/
theorem answered_eq_iff {raised : Raised} :
    answered raised = .unavailable ↔ raised = .storeUnavailable := by
  cases raised <;> simp only [answered, reduceCtorEq]

/-- Where the database fails, what is raised is the store's own exception exactly where
    the error is translated. -/
theorem raised_iff {place : Place} {error : DriverError} (hfails : c.fails place = some error)
    {e : Escape} (h : (transaction c s body).1 = .error e) (hplace : e.place = some place) :
    e.raised = .storeUnavailable ↔ place.Translates error := by
  have hout := outcome_transaction c s body
  generalize transaction c s body = out at h hout
  cases hout with
  | @connect failed hconnect =>
      cases h
      rw [place_translated] at hplace
      cases hplace
      rw [hfails, Option.some.injEq] at hconnect
      subst hconnect
      exact (raised_translated rfl).trans List.mem_singleton
  | schema hschema =>
      -- Nothing around the schema translates.
      cases h
      rcases hschema place hplace with ⟨⟨n, rfl⟩, failed, _, hraised⟩
      simp only [hraised, reduceCtorEq, Place.Translates]
  | @writes e hwrites =>
      -- Around the writes either error is translated.
      cases h
      rw [place_translated] at hplace
      rcases hwrites place hplace with ⟨⟨n, rfl⟩, failed, _, hraised⟩
      refine iff_of_true ((raised_translated hraised).mpr ?_) trivial
      cases failed <;> decide
  | commit hcommit =>
      cases h
      cases hplace
      simp only [reduceCtorEq, Place.Translates]
  | done => cases h

/-- In every state, for all writes: where the database fails, the caller is told that the
    store is unavailable, with nothing changed, exactly if it was opening the connection and
    an error of operation, or a statement of the writes. -/
theorem unavailable_iff {place : Place} {error : DriverError}
    (hfails : c.fails place = some error) {e : Escape}
    (h : (transaction c s body).1 = .error e) (hplace : e.place = some place) :
    Unavailable s place (transaction c s body) ↔ place.Translates error := by
  have hraised := raised_iff hfails h hplace
  constructor
  · intro hunavailable
    exact hraised.mp (hunavailable.raised e h)
  · intro htranslates
    have hsame : ∀ e', (transaction c s body).1 = .error e' → e'.raised = .storeUnavailable := by
      intro e' h'
      rw [h, Except.error.injEq] at h'
      rw [← h']
      exact hraised.mpr htranslates
    refine ⟨hsame, fun e' h' => answered_eq_iff.mpr (hsame e' h'), fun hne => ?_⟩
    refine committed_of_error h ?_
    rw [hplace]
    exact fun heq => hne (Option.some.inj heq)

end Outcomes

/-! ### Rows -/

/-- Applying the schema adds no rows. -/
theorem rows_of_applySchema {c : Condition} {s : Store} {d : Data}
    (h : applySchema c s = .ok d) : d.rows = s.committed.rows := by
  unfold applySchema at h
  split at h
  · cases h
    rfl
  · generalize Schema.Store.triage.schema.zipIdx = statements at h
    generalize s.committed = before at h ⊢
    induction statements generalizing before with
    | nil =>
        cases h
        rfl
    | cons statement rest ih =>
        rw [List.foldlM_cons] at h
        rcases Failing.bind_eq_ok.mp h with ⟨one, hone, hrest⟩
        rcases Failing.bind_eq_ok.mp hone with ⟨_, _, hone⟩
        rcases Failing.bind_eq_ok.mp hone with ⟨_, _, hone⟩
        cases hone
        rw [ih _ hrest]

/-- The rows with a run and the entry behind it. -/
def withRun (rows : TriageStore.Tables) (run : TriageRun) : TriageStore.Tables :=
  (rows.apply (.run run)).apply
    (.entry (TriageStore.nextEntry rows.last (Pipeline.contentOf run)))

/-- The writes of the pipeline add a run that was not there, and its entry. -/
theorem rows_of_perform {c : Condition} {d d' : Data} {run : TriageRun}
    (h : (recorded run).perform c 0 d = .ok d') :
    (∀ r ∈ d.rows.triageRuns, r.runId ≠ run.runId) ∧ d'.rows = withRun d.rows run := by
  rcases Failing.bind_eq_ok.mp h with ⟨one, hone, h⟩
  rcases Failing.bind_eq_ok.mp h with ⟨⟨entry, two⟩, htwo, h⟩
  cases h
  have hrun : (∀ r ∈ d.rows.triageRuns, r.runId ≠ run.runId) ∧
      one.rows = d.rows.apply (.run run) := by
    unfold recordRun at hone
    split at hone
    · rcases Failing.bind_eq_ok.mp hone with ⟨_, _, hone⟩
      rcases Failing.bind_eq_ok.mp hone with ⟨_, _, hone⟩
      split at hone
      · rename_i haccepts
        cases hone
        exact ⟨haccepts.1, rfl⟩
      · cases hone
    · cases hone
  refine ⟨hrun.1, ?_⟩
  have hlast : one.rows.last = d.rows.last := by
    rw [hrun.2]
    rfl
  unfold appendEntry at htwo
  rcases Failing.bind_eq_ok.mp htwo with ⟨_, _, htwo⟩
  rcases Failing.bind_eq_ok.mp htwo with ⟨_, _, htwo⟩
  rcases Failing.bind_eq_ok.mp htwo with ⟨_, _, htwo⟩
  simp only at htwo
  split at htwo
  · rcases Failing.bind_eq_ok.mp htwo with ⟨_, _, htwo⟩
    rcases Failing.bind_eq_ok.mp htwo with ⟨_, _, htwo⟩
    split at htwo
    · cases htwo
      rw [hlast, hrun.2]
      rfl
    · cases htwo
  · cases htwo

/-- What a transaction of the pipeline leaves of the rows: what they were, or those
    with the run and its entry; and if it succeeds, the latter. -/
theorem rows_of_transaction (c : Condition) (s : Store) (run : TriageRun) :
    ((transaction c s (recorded run)).2.committed.rows = s.committed.rows ∧
      (transaction c s (recorded run)).1 ≠ .ok ()) ∨
    ((∀ r ∈ s.committed.rows.triageRuns, r.runId ≠ run.runId) ∧
      (transaction c s (recorded run)).2.committed.rows = withRun s.committed.rows run) := by
  unfold transaction
  split
  · exact Or.inl ⟨rfl, nofun⟩
  · split
    · exact Or.inl ⟨rfl, nofun⟩
    · rename_i d hschema
      have hrows := rows_of_applySchema hschema
      split
      · exact Or.inl ⟨rfl, nofun⟩
      · rename_i d' hwrites
        rcases rows_of_perform hwrites with ⟨hfresh, hadded⟩
        rw [hrows] at hfresh hadded
        split
        · -- A commit that fails may have taken.
          split
          · exact Or.inr ⟨hfresh, hadded⟩
          · exact Or.inl ⟨rfl, nofun⟩
        · exact Or.inr ⟨hfresh, hadded⟩

/-! ### Failing connections -/

/-- A database that was never used. -/
def fresh : Store :=
  ⟨false, [], [], []⟩

/-- The connection is lost at one place. -/
def lostAt (place : Place) : Condition where
  fails p := if p = place then some .operational else none
  commitTook := false

/-- A run of a claim, to be recorded. -/
def triaged : TriageRun :=
  let now : DateTime := (⟨.third, .noon⟩ : Moment).toDateTime
  ⟨⟨7, Uuid.seven_valid⟩, ⟨1, Uuid.one_valid⟩, text "baseline", text "control",
    .triaged, [], [], now, now⟩

/-- A database that goes away between the two writes is a store that is unavailable. -/
theorem unavailable_between :
    Unavailable fresh (.statement 1)
      (transaction (lostAt (.statement 1)) fresh (recorded triaged)) := by
  have hout : (transaction (lostAt (.statement 1)) fresh (recorded triaged)).1 =
      .error ⟨.storeUnavailable, some (.statement 1)⟩ := by decide +kernel
  exact (@unavailable_iff _ _ _ _ .operational (by decide) _ hout rfl).mpr trivial

/-- A database that goes away at the commit is a defect. -/
theorem not_unavailable_commit :
    ¬ Unavailable fresh .commit (transaction (lostAt .commit) fresh (recorded triaged)) := by
  have hout : (transaction (lostAt .commit) fresh (recorded triaged)).1 =
      .error ⟨.failed .operational, some .commit⟩ := by decide +kernel
  intro h
  cases h.raised _ hout

end Transaction

end ClaimTriage
