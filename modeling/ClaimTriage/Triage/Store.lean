import ClaimTriage.Theory.Isolation
import ClaimTriage.Theory.Machine
import ClaimTriage.Triage.Audit
import ClaimTriage.Triage.Run

/-!
# The Triage Store

The tables the triager owns and the transactions that write them, statement by
statement.

Any number of transactions are open at once, named by an arbitrary type, and
their statements interleave in any order. What one statement does is `step`:
recording a run is one insert, and appending an entry is three statements, the
chain's lock, the read of the last entry, and the insert of the one that
follows it. An insert waits while another open transaction holds an entry of
the unique index it inserts into, and is refused where the row is there
already. A value that cannot be written at all raises before anything is sent,
which leaves the transaction as it was; any other error aborts it, and what is
asked of an aborted transaction then is refused until it ends.

The chain is written under one lock, and `Inv` is what that comes to: whoever
appended and has not ended holds the lock, and what any transaction sees of
the log is a log that appends left. The read a transaction links onto is never
out of date, because nobody else can commit an entry before it ends.

## Main definitions

* `Tables`: The rows of the two tables.
* `Session`: How far a transaction's block has got.
* `Statement`, `step`: What a transaction does next, and what comes of it.
* `machine`: The store, from empty tables and no connection open.
* `Effect`: What a step can do, case by case.
* `Inv`: The invariant of the log.
* `UniqueInv`: No run is there twice.

## Theorems

* `effect_of_step`: Every step is one of the cases.
* `inv_of_reachable`, `uniqueInv_of_reachable`: The invariants hold wherever the
  store gets to.
* `chain_of_reachable`: The committed log is a chain numbered from one.
-/

namespace ClaimTriage

open Theory Text

namespace TriageStore

/-! ### Rows -/

/-- The rows of the triager's tables, each as the insert gave it. -/
structure Tables where
  triageRuns : List TriageRun
  auditLog : List Audit.AuditEntry

/-- One insert. -/
inductive Write where
  | run (run : TriageRun)
  | entry (entry : Audit.AuditEntry)

/-- The tables with one more row. -/
def Tables.apply (t : Tables) : Write → Tables
  | .run run => { t with triageRuns := t.triageRuns ++ [run] }
  | .entry entry => { t with auditLog := t.auditLog ++ [entry] }

/-- What is taken until a transaction ends: the chain's advisory lock, and the
    entries of the two unique indexes. -/
inductive Resource where
  | chainLock
  | runKey (runId : Uuid)
  | seqKey (seq : Int)
  deriving DecidableEq

/-- Verdicts as the column's JSON. -/
def verdicts (documents : List DocumentVerdicts) : Json :=
  DocumentVerdicts.wire.array.encode documents

/-- The text columns take what a run gives them. -/
def RunTexts (run : TriageRun) : Prop :=
  Storable run.experiment ∧ Storable run.variant ∧ Storable run.traceId

instance (run : TriageRun) : Decidable (RunTexts run) :=
  inferInstanceAs (Decidable (_ ∧ _))

/-- The text columns take what an entry gives them. -/
def EntryTexts (entry : Audit.AuditEntry) : Prop :=
  (Storable entry.node ∧ Storable entry.experiment ∧ Storable entry.variant ∧
    Storable entry.traceId) ∧ Storable entry.prevHash ∧ Storable entry.hash

instance (entry : Audit.AuditEntry) : Decidable (EntryTexts entry) :=
  inferInstanceAs (Decidable (_ ∧ _))

/-- The insert of a run is not refused: the run is not recorded yet, and its
    verdicts are JSON the column keeps. -/
def Tables.AcceptsRun (t : Tables) (run : TriageRun) : Prop :=
  (∀ r ∈ t.triageRuns, r.runId ≠ run.runId) ∧
    (jsonb.apply (verdicts run.guardVerdicts)).isSome

instance (t : Tables) (run : TriageRun) : Decidable (t.AcceptsRun run) :=
  haveI : Decidable (∀ r ∈ t.triageRuns, r.runId ≠ run.runId) := List.decidableBAll _ _
  inferInstanceAs (Decidable (_ ∧ _))

/-- The insert of an entry is not refused: its place is not taken and is one
    the column has, and its verdicts are JSON the column keeps. -/
def Tables.AcceptsEntry (t : Tables) (entry : Audit.AuditEntry) : Prop :=
  (∀ e ∈ t.auditLog, e.seq ≠ entry.seq) ∧ entry.seq ≤ 2147483647 ∧
    (jsonb.apply (verdicts entry.guardVerdicts)).isSome

instance (t : Tables) (entry : Audit.AuditEntry) : Decidable (t.AcceptsEntry entry) :=
  haveI : Decidable (∀ e ∈ t.auditLog, e.seq ≠ entry.seq) := List.decidableBAll _ _
  inferInstanceAs (Decidable (_ ∧ _))

/-- The log in the order of its places. -/
def Tables.bySeq (t : Tables) : List Audit.AuditEntry :=
  t.auditLog.insertionSort fun a b => a.seq ≤ b.seq

/-- Place and hash of the entry at the last place. -/
def Tables.last (t : Tables) : Option (Int × Str) :=
  t.bySeq.getLast?.map fun e => (e.seq, e.hash)

/-- The entry an append writes, after the one it read. -/
def nextEntry (previous : Option (Int × Str)) (content : Audit.AuditEntryContent) :
    Audit.AuditEntry :=
  let next := Audit.continues previous
  Audit.append next.2 next.1 content

/-! ### Transactions -/

/-- How far a transaction's block has got: between calls, in an append that
    has the lock, in one that has read the last entry too, after a value that
    could not be sent, after an error of the database's, or over. -/
inductive Session where
  | unopened
  | idle
  | locked (content : Audit.AuditEntryContent)
  | read (content : Audit.AuditEntryContent) (previous : Option (Int × Str))
  | raised
  | aborted
  | closed

/-- The transaction is open. -/
def Session.Open : Session → Prop
  | unopened | closed => False
  | _ => True

instance (session : Session) : Decidable session.Open := by
  cases session <;> simp only [Session.Open] <;> infer_instance

/-- A statement of the block raised. -/
def Session.Failed : Session → Prop
  | raised | aborted => True
  | _ => False

instance (session : Session) : Decidable session.Failed := by
  cases session <;> simp only [Session.Failed] <;> infer_instance

/-- What a transaction does next. -/
inductive Statement where
  | connect
  | recordRun (run : TriageRun)
  | lockChain (content : Audit.AuditEntryContent)
  | readLast
  | insertEntry
  | fail
  | resume
  | commit
  | rollback

/-- The database, and every block's session with it. -/
structure State (ι : Type) where
  db : Database Tables Write Resource ι
  session : ι → Session

namespace State

variable {ι : Type} [DecidableEq ι]

/-- The tables as a transaction sees them. -/
def view (s : State ι) (i : ι) : Tables :=
  s.db.view Tables.apply i

/-- Another session for one block. -/
def goto (s : State ι) (i : ι) (session : Session) : State ι :=
  { s with session := Function.update s.session i session }

/-- A row inserted, its index entry taken, and the block between calls. -/
def insert (s : State ι) (i : ι) (key : Resource) (w : Write) : State ι :=
  { db := (s.db.acquire key i).write i w, session := Function.update s.session i .idle }

/-- The transaction ended with what it wrote. -/
def commit (s : State ι) (i : ι) : State ι :=
  { db := s.db.commit Tables.apply i, session := Function.update s.session i .closed }

/-- The transaction ended with nothing it wrote. -/
def rollback (s : State ι) (i : ι) : State ι :=
  { db := s.db.rollback i, session := Function.update s.session i .closed }

end State

variable {ι : Type} [DecidableEq ι]

/-- What comes of a transaction's next statement; nothing while it waits, or
    where the block is not at a place to send it. -/
def step (s : State ι) (act : ι × Statement) : Option (State ι) :=
  let i := act.1
  match act.2, s.session i with
  | .connect, .unopened => some (s.goto i .idle)
  | .recordRun run, .idle =>
    if RunTexts run then
      -- The insert waits for whoever else is recording this run.
      if s.db.Free (.runKey run.runId) i then
        if (s.view i).AcceptsRun run then some (s.insert i (.runKey run.runId) (.run run))
        else some (s.goto i .aborted)
      else none
    else some (s.goto i .raised)
  | .lockChain content, .idle =>
    if s.db.Free .chainLock i then
      some { db := s.db.acquire .chainLock i,
             session := Function.update s.session i (.locked content) }
    else none
  | .readLast, .locked content => some (s.goto i (.read content (s.view i).last))
  | .insertEntry, .read content previous =>
    let entry := nextEntry previous content
    if EntryTexts entry then
      if s.db.Free (.seqKey entry.seq) i then
        if (s.view i).AcceptsEntry entry then some (s.insert i (.seqKey entry.seq) (.entry entry))
        else some (s.goto i .aborted)
      else none
    else some (s.goto i .raised)
  -- Any statement of an open transaction may fail on the way.
  | .fail, session => if session.Open then some (s.goto i .aborted) else none
  -- A block that catches what a value raised goes on with its transaction.
  | .resume, .raised => some (s.goto i .idle)
  | .commit, .idle => some (s.commit i)
  -- Committing an aborted transaction rolls it back.
  | .commit, .aborted => some (s.rollback i)
  | .rollback, session => if session.Open then some (s.rollback i) else none
  | _, _ => none

/-- Empty tables and no connection open. -/
def start : State ι where
  db := Database.quiet ⟨[], []⟩
  session _ := .unopened

/-- The store, from its start. -/
def machine (ι : Type) [DecidableEq ι] : Machine (State ι) (ι × Statement) where
  init s := s = start
  step := step

/-! ### What a step can do -/

/-- Everything a step of block `i` can do, with what had to hold for it. -/
inductive Effect (s : State ι) (i : ι) : Statement → State ι → Prop
  | connect : s.session i = .unopened → Effect s i .connect (s.goto i .idle)
  | recordRun {run : TriageRun} : s.session i = .idle → RunTexts run →
      s.db.Free (.runKey run.runId) i → (s.view i).AcceptsRun run →
      Effect s i (.recordRun run) (s.insert i (.runKey run.runId) (.run run))
  | lockChain {content : Audit.AuditEntryContent} : s.session i = .idle →
      s.db.Free .chainLock i →
      Effect s i (.lockChain content)
        { db := s.db.acquire .chainLock i,
          session := Function.update s.session i (.locked content) }
  | readLast {content : Audit.AuditEntryContent} : s.session i = .locked content →
      Effect s i .readLast (s.goto i (.read content (s.view i).last))
  | insertEntry {content : Audit.AuditEntryContent} {previous : Option (Int × Str)} :
      s.session i = .read content previous → EntryTexts (nextEntry previous content) →
      s.db.Free (.seqKey (nextEntry previous content).seq) i →
      (s.view i).AcceptsEntry (nextEntry previous content) →
      Effect s i .insertEntry (s.insert i (.seqKey (nextEntry previous content).seq)
        (.entry (nextEntry previous content)))
  | raise {a : Statement} : (s.session i).Open → (∃ run, a = .recordRun run) ∨ a = .insertEntry →
      Effect s i a (s.goto i .raised)
  | abort {a : Statement} : (s.session i).Open →
      (∃ run, a = .recordRun run) ∨ a = .insertEntry ∨ a = .fail →
      Effect s i a (s.goto i .aborted)
  | resume : s.session i = .raised → Effect s i .resume (s.goto i .idle)
  | commit : s.session i = .idle → Effect s i .commit (s.commit i)
  | rollback {a : Statement} : (s.session i).Open →
      a = .rollback ∨ (a = .commit ∧ s.session i = .aborted) → Effect s i a (s.rollback i)

/-- Every step is one of the cases. -/
theorem effect_of_step {s s' : State ι} {i : ι} {a : Statement} (h : step s (i, a) = some s') :
    Effect s i a s' := by
  have hopen : ∀ session, s.session i = session → session.Open → (s.session i).Open := by
    intro session hs ho
    rwa [hs]
  -- The cases are the step's own: a statement that waits is no step, one that is refused leaves its
  -- transaction aborted or raised.
  simp only [step] at h
  split at h
  · rename_i hs
    cases h
    exact .connect hs
  · rename_i run hs
    by_cases htexts : RunTexts run
    · by_cases hfree : s.db.Free (.runKey run.runId) i
      · by_cases haccepts : (s.view i).AcceptsRun run
        · rw [if_pos htexts, if_pos hfree, if_pos haccepts, Option.some.injEq] at h
          exact h ▸ .recordRun hs htexts hfree haccepts
        · rw [if_pos htexts, if_pos hfree, if_neg haccepts, Option.some.injEq] at h
          exact h ▸ .abort (hopen _ hs trivial) (Or.inl ⟨run, rfl⟩)
      · rw [if_pos htexts, if_neg hfree] at h
        cases h
    · rw [if_neg htexts, Option.some.injEq] at h
      exact h ▸ .raise (hopen _ hs trivial) (Or.inl ⟨run, rfl⟩)
  · rename_i content hs
    by_cases hfree : s.db.Free .chainLock i
    · rw [if_pos hfree, Option.some.injEq] at h
      exact h ▸ .lockChain hs hfree
    · rw [if_neg hfree] at h
      cases h
  · rename_i content hs
    cases h
    exact .readLast hs
  · rename_i content previous hs
    by_cases htexts : EntryTexts (nextEntry previous content)
    · by_cases hfree : s.db.Free (.seqKey (nextEntry previous content).seq) i
      · by_cases haccepts : (s.view i).AcceptsEntry (nextEntry previous content)
        · rw [if_pos htexts, if_pos hfree, if_pos haccepts, Option.some.injEq] at h
          exact h ▸ .insertEntry hs htexts hfree haccepts
        · rw [if_pos htexts, if_pos hfree, if_neg haccepts, Option.some.injEq] at h
          exact h ▸ .abort (hopen _ hs trivial) (Or.inr (Or.inl rfl))
      · rw [if_pos htexts, if_neg hfree] at h
        cases h
    · rw [if_neg htexts, Option.some.injEq] at h
      exact h ▸ .raise (hopen _ hs trivial) (Or.inr rfl)
  · rename_i session
    by_cases ho : (s.session i).Open
    · rw [if_pos ho, Option.some.injEq] at h
      exact h ▸ .abort ho (Or.inr (Or.inr rfl))
    · rw [if_neg ho] at h
      cases h
  · rename_i hs
    cases h
    exact .resume hs
  · rename_i hs
    cases h
    exact .commit hs
  · rename_i hs
    cases h
    exact .rollback (hopen _ hs trivial) (Or.inr ⟨rfl, hs⟩)
  · rename_i session
    by_cases ho : (s.session i).Open
    · rw [if_pos ho, Option.some.injEq] at h
      exact h ▸ .rollback ho (Or.inl rfl)
    · rw [if_neg ho] at h
      cases h
  · cases h

/-- A step of one block leaves the others' sessions and what they wrote, and
    leaves what is committed unless it is the block's commit. -/
theorem Effect.frame {s s' : State ι} {i : ι} {a : Statement} (he : Effect s i a s') :
    (∀ j, j ≠ i → s'.session j = s.session j ∧ s'.db.pending j = s.db.pending j) ∧
      (s'.db.committed = s.db.committed ∨
        (a = .commit ∧ s.session i = .idle ∧ s' = s.commit i)) := by
  have hsession : ∀ j, j ≠ i → ∀ session, Function.update s.session i session j = s.session j :=
    fun j hji session => Function.update_of_ne hji _ _
  cases he with
  | connect | readLast | raise | abort | resume =>
      exact ⟨fun j hji => ⟨hsession j hji _, rfl⟩, Or.inl rfl⟩
  | recordRun | insertEntry =>
      exact ⟨fun j hji => ⟨hsession j hji _, Database.pending_write_other _ _ hji⟩, Or.inl rfl⟩
  | lockChain => exact ⟨fun j hji => ⟨hsession j hji _, rfl⟩, Or.inl rfl⟩
  | commit hs =>
      exact ⟨fun j hji => ⟨hsession j hji _, Database.pending_commit_other _ hji⟩,
        Or.inr ⟨rfl, hs, rfl⟩⟩
  | rollback =>
      exact ⟨fun j hji => ⟨hsession j hji _, Database.pending_rollback_other _ hji⟩, Or.inl rfl⟩

/-! ### The invariant of the log -/

/-- The entries a write appends to the log. -/
def Write.entries : Write → List Audit.AuditEntry
  | .run _ => []
  | .entry e => [e]

theorem auditLog_appendOnly :
    Database.AppendOnly Tables.apply Tables.auditLog Write.entries := by
  intro t w
  cases w with
  | run run => exact (List.append_nil _).symm
  | entry entry => rfl

/-- The runs a write appends to the runs. -/
def Write.runs : Write → List TriageRun
  | .run r => [r]
  | .entry _ => []

theorem triageRuns_appendOnly :
    Database.AppendOnly Tables.apply Tables.triageRuns Write.runs := by
  intro t w
  cases w with
  | run run => rfl
  | entry entry => exact (List.append_nil _).symm

/-- Whatever a block does, what is committed of the runs stays, and more runs
    come after it. -/
theorem Effect.grown {s s' : State ι} {i : ι} {a : Statement} (he : Effect s i a s') :
    s.db.committed.triageRuns <+: s'.db.committed.triageRuns := by
  rcases he.frame.2 with hsame | ⟨_, _, rfl⟩
  · rw [hsame]
  · simp only [State.commit, Database.committed_commit,
      Database.map_view triageRuns_appendOnly, List.prefix_append]

/-- The log of some tables is one that appends left. -/
def Logged (t : Tables) : Prop :=
  ∃ contents, t.auditLog = Audit.logged contents

/-- A log that appends left is in the order of its places. -/
theorem bySeq_of_logged {t : Tables} (h : Logged t) : t.bySeq = t.auditLog := by
  rcases h with ⟨contents, hlog⟩
  unfold Tables.bySeq
  refine List.Pairwise.insertionSort_eq ?_
  rw [hlog, ← List.pairwise_map, Audit.seq_logged, List.pairwise_map]
  refine List.pairwise_lt_range.imp ?_
  intro a b hab
  omega

theorem last_of_logged {t : Tables} (h : Logged t) :
    t.last = t.auditLog.getLast?.map fun e => (e.seq, e.hash) := by
  rw [Tables.last, bySeq_of_logged h]

/-- The entry that follows the last one of a log extends the log. -/
theorem logged_apply_entry {t : Tables} (h : Logged t) (content : Audit.AuditEntryContent) :
    Logged (t.apply (.entry (nextEntry t.last content))) := by
  have hlast := last_of_logged h
  rcases h with ⟨contents, hlog⟩
  refine ⟨contents ++ [content], ?_⟩
  rw [Audit.logged_concat, Audit.extend, ← hlog, nextEntry, hlast]
  rfl

/-- What is committed of the log, and what any transaction sees of it, is a log
    that appends left; and whoever appended to it holds the chain's lock. -/
structure LogInv (d : Database Tables Write Resource ι) : Prop where
  committed : Logged d.committed
  view : ∀ i, Logged (d.view Tables.apply i)
  guarded : d.Guarded Write.entries .chainLock

/-- A block inside an append holds the chain's lock, and what it read is the
    last entry it sees. -/
def SessionInv (d : Database Tables Write Resource ι) (i : ι) : Session → Prop
  | .locked _ => d.holder .chainLock = some i
  | .read _ previous =>
    d.holder .chainLock = some i ∧ previous = (d.view Tables.apply i).last
  | _ => True

/-- The invariant of the log. -/
structure Inv (s : State ι) : Prop where
  log : LogInv s.db
  session : ∀ i, SessionInv s.db i (s.session i)

theorem logged_congr {t u : Tables} (h : t.auditLog = u.auditLog) : Logged t ↔ Logged u := by
  unfold Logged
  rw [h]

theorem last_congr {t u : Tables} (h : t.auditLog = u.auditLog) : t.last = u.last := by
  unfold Tables.last Tables.bySeq
  rw [h]

omit [DecidableEq ι] in
theorem LogInv.acquire {d : Database Tables Write Resource ι} (h : LogInv d) {r : Resource} {i : ι}
    (hfree : d.Free r i) : LogInv (d.acquire r i) :=
  ⟨h.committed, h.view, h.guarded.acquire hfree⟩

/-- A write keeps the log, if it leaves it alone or appends what follows the
    last entry under the lock. -/
theorem LogInv.write {d : Database Tables Write Resource ι} (h : LogInv d) {i : ι} {w : Write}
    (hguard : w.entries = [] ∨ d.holder .chainLock = some i)
    (hlogged : Logged ((d.view Tables.apply i).apply w)) : LogInv (d.write i w) := by
  refine ⟨h.committed, fun j => ?_, h.guarded.write hguard⟩
  by_cases hji : j = i
  · subst hji
    rw [Database.view_write_self]
    exact hlogged
  · rw [Database.view_write_other d w hji]
    exact h.view j

/-- A commit makes what its transaction sees the committed log. The holder of
    the lock sees what it saw, and everybody else the committed log. -/
theorem LogInv.commit {d : Database Tables Write Resource ι} (h : LogInv d) (i : ι) :
    LogInv (d.commit Tables.apply i) := by
  refine ⟨h.view i, fun j => ?_, h.guarded.commit i⟩
  by_cases hji : j = i
  · subst hji
    rw [Database.view_commit_self]
    exact h.view j
  · by_cases hlock : d.holder .chainLock = some j
    · rw [logged_congr (h.guarded.view_commit_of_holder auditLog_appendOnly hji hlock)]
      exact h.view j
    · have hnot : (d.commit Tables.apply i).holder .chainLock ≠ some j := fun hheld =>
        hlock (Database.holder_commit.mp hheld).1
      rw [logged_congr ((h.guarded.commit i).view_of_not_holder auditLog_appendOnly hnot)]
      exact h.view i

theorem LogInv.rollback {d : Database Tables Write Resource ι} (h : LogInv d) (i : ι) :
    LogInv (d.rollback i) := by
  refine ⟨h.committed, fun j => ?_, h.guarded.rollback i⟩
  by_cases hji : j = i
  · subst hji
    rw [Database.view_rollback_self]
    exact h.committed
  · rw [Database.view_rollback_other d hji]
    exact h.view j

omit [DecidableEq ι] in
/-- A block's place is still right when it holds what it held and sees the log
    it saw while it held the lock. -/
theorem SessionInv.of_db {d d' : Database Tables Write Resource ι} {j : ι} {session : Session}
    (h : SessionInv d j session)
    (hheld : d.holder .chainLock = some j → d'.holder .chainLock = some j)
    (hseen : d.holder .chainLock = some j →
      (d'.view Tables.apply j).auditLog = (d.view Tables.apply j).auditLog) :
    SessionInv d' j session := by
  cases session with
  | locked content => exact hheld h
  | read content previous =>
      refine ⟨hheld h.1, ?_⟩
      rw [h.2]
      exact (last_congr (hseen h.1)).symm
  | unopened | idle | raised | aborted | closed => trivial

/-- One block somewhere else, the database as it was. -/
theorem Inv.goto {s : State ι} (h : Inv s) {i : ι} {session : Session}
    (hsession : SessionInv s.db i session) : Inv (s.goto i session) := by
  refine ⟨h.log, fun j => ?_⟩
  by_cases hji : j = i
  · subst hji
    simp only [State.goto, Function.update_self]
    exact hsession
  · simp only [State.goto, Function.update_of_ne hji]
    exact h.session j

/-- One block somewhere else, and a database that the others cannot tell from
    the one before. -/
theorem Inv.move {s : State ι} (h : Inv s) {i : ι} {session : Session}
    {d : Database Tables Write Resource ι} (hlog : LogInv d)
    (hsession : SessionInv d i session)
    (hheld : ∀ j, j ≠ i → s.db.holder .chainLock = some j → d.holder .chainLock = some j)
    (hseen : ∀ j, j ≠ i → s.db.holder .chainLock = some j →
      (d.view Tables.apply j).auditLog = (s.db.view Tables.apply j).auditLog) :
    Inv { db := d, session := Function.update s.session i session } := by
  refine ⟨hlog, fun j => ?_⟩
  by_cases hji : j = i
  · subst hji
    simp only [Function.update_self]
    exact hsession
  · simp only [Function.update_of_ne hji]
    exact (h.session j).of_db (hheld j hji) (hseen j hji)

/-- An insert that leaves the log alone or extends it under the lock. -/
theorem Inv.insert {s : State ι} (h : Inv s) {i : ι} {key : Resource} {w : Write}
    (hfree : s.db.Free key i)
    (hguard : w.entries = [] ∨ (s.db.acquire key i).holder .chainLock = some i)
    (hlogged : Logged ((s.view i).apply w)) : Inv (s.insert i key w) := by
  refine h.move ((h.log.acquire hfree).write hguard hlogged) trivial ?_ ?_
  · intro j _ hlock
    rw [Database.holder_write]
    exact Database.holder_acquire_of_holder hfree hlock
  · intro j hji _
    rw [Database.view_write_other _ _ hji]
    rfl

/-- Every step keeps the invariant. -/
theorem Inv.effect {s s' : State ι} {i : ι} {a : Statement} (h : Inv s) (he : Effect s i a s') :
    Inv s' := by
  have hsession := h.session i
  cases he with
  | connect _ => exact h.goto trivial
  | recordRun hs _ hfree _ =>
      -- A run is no entry, so the log is as it was.
      refine h.insert hfree (Or.inl rfl) ?_
      exact h.log.view i
  | lockChain hs hfree =>
      refine h.move (h.log.acquire hfree) (Database.holder_acquire_self _ _ _) ?_ ?_
      · exact fun j _ hlock => Database.holder_acquire_of_holder hfree hlock
      · exact fun j _ _ => rfl
  | readLast hs =>
      rw [hs] at hsession
      exact h.goto ⟨hsession, rfl⟩
  | insertEntry hs _ hfree _ =>
      -- What was read is still the last entry, so what is inserted follows it.
      rw [hs] at hsession
      refine h.insert hfree (Or.inr (Database.holder_acquire_of_holder hfree hsession.1)) ?_
      rw [hsession.2]
      exact logged_apply_entry (h.log.view i) _
  | raise _ _ => exact h.goto trivial
  | abort _ _ => exact h.goto trivial
  | resume _ => exact h.goto trivial
  | commit _ =>
      refine h.move (h.log.commit i) trivial ?_ ?_
      · exact fun j hji hlock => Database.holder_commit.mpr ⟨hlock, hji⟩
      · exact fun j hji hlock =>
          h.log.guarded.view_commit_of_holder auditLog_appendOnly hji hlock
  | rollback _ _ =>
      refine h.move (h.log.rollback i) trivial ?_ ?_
      · exact fun j hji hlock => Database.holder_rollback.mpr ⟨hlock, hji⟩
      · intro j hji _
        rw [Database.view_rollback_other _ hji]

/-- The invariant holds wherever the store gets to. -/
theorem inv_of_reachable {s : State ι} (h : (machine ι).Reachable s) : Inv s := by
  refine h.induct ?_ ?_
  · rintro s rfl
    have hempty : Logged ⟨[], []⟩ := ⟨[], rfl⟩
    exact ⟨⟨hempty, fun _ => hempty, Database.guarded_quiet _⟩, fun _ => trivial⟩
  · rintro s ⟨i, a⟩ s' hs hstep
    exact hs.effect (effect_of_step hstep)

/-! ### No run twice -/

/-- What a write's transaction holds: the index entry of the row it inserts. -/
def Write.key : Write → Resource
  | .run r => .runKey r.runId
  | .entry e => .seqKey e.seq

/-- No two runs that are committed or that one transaction sees have one
    identifier, the index entries of what is pending are held, and only by
    transactions that are open. -/
structure UniqueInv (s : State ι) : Prop where
  committed : (s.db.committed.triageRuns.map (·.runId)).Nodup
  view : ∀ i, ((s.view i).triageRuns.map (·.runId)).Nodup
  held : s.db.Held Write.key
  opened : ∀ r i, s.db.holder r = some i → (s.session i).Open

/-- One block at another open place, the database as it was. -/
theorem UniqueInv.goto {s : State ι} (h : UniqueInv s) {i : ι} {session : Session}
    (hopen : session.Open) : UniqueInv (s.goto i session) := by
  refine ⟨h.committed, h.view, h.held, fun r j hr => ?_⟩
  by_cases hji : j = i
  · subst hji
    simp only [State.goto, Function.update_self]
    exact hopen
  · simp only [State.goto, Function.update_of_ne hji]
    exact h.opened r j hr

/-- One block takes a resource, and is still open. -/
theorem UniqueInv.acquire {s : State ι} (h : UniqueInv s) {i : ι} {key : Resource}
    {session : Session} (hfree : s.db.Free key i) (hopen : session.Open) :
    UniqueInv { db := s.db.acquire key i, session := Function.update s.session i session } := by
  refine ⟨h.committed, h.view, h.held.acquire hfree, fun r j hr => ?_⟩
  by_cases hji : j = i
  · subst hji
    simp only [Function.update_self]
    exact hopen
  · simp only [Function.update_of_ne hji]
    refine h.opened r j ?_
    by_cases hrk : r = key
    · subst hrk
      simp only [Database.holder_acquire_self, Option.some.injEq] at hr
      exact absurd hr.symm hji
    · simpa only [Database.acquire, Function.update_of_ne hrk] using hr

/-- One block inserts a row whose index entry it takes. -/
theorem UniqueInv.insert {s : State ι} (h : UniqueInv s) {i : ι} {w : Write}
    (hfree : s.db.Free w.key i)
    (hnew : (((s.view i).apply w).triageRuns.map (·.runId)).Nodup) :
    UniqueInv (s.insert i w.key w) := by
  have hacquired : UniqueInv { db := s.db.acquire w.key i,
                               session := Function.update s.session i .idle } :=
    h.acquire hfree trivial
  refine ⟨h.committed, fun j => ?_, ?_, hacquired.opened⟩
  · by_cases hji : j = i
    · subst hji
      simp only [State.view, State.insert, Database.view_write_self]
      exact hnew
    · simp only [State.view, State.insert, Database.view_write_other _ _ hji]
      exact h.view j
  · exact (h.held.acquire hfree).write (Database.holder_acquire_self _ _ _)

/-- A commit keeps the runs apart: what two transactions inserted has different
    index entries. -/
theorem UniqueInv.commit {s : State ι} (h : UniqueInv s) (i : ι) : UniqueInv (s.commit i) := by
  refine ⟨h.view i, fun j => ?_, h.held.commit i, fun r j hr => ?_⟩
  · by_cases hji : j = i
    · subst hji
      -- Whoever commits sees afterwards what it saw before.
      simp only [State.view, State.commit, Database.view_commit_self]
      exact h.view j
    · have hi := h.view i
      have hj := h.view j
      simp only [State.view, Database.map_view triageRuns_appendOnly, List.map_append,
        List.nodup_append] at hi hj
      simp only [State.view, State.commit, Database.map_view triageRuns_appendOnly,
        Database.committed_commit, Database.pending_commit_other _ hji, List.map_append]
      rw [List.nodup_append]
      refine ⟨List.nodup_append.mpr hi, hj.2.1, ?_⟩
      intro a ha b hb
      rcases List.mem_append.mp ha with ha | ha
      · exact hj.2.2 a ha b hb
      · -- Both are pending, each under an index entry its transaction holds.
        rcases List.mem_map.mp ha with ⟨r, hr, rfl⟩
        rcases List.mem_map.mp hb with ⟨q, hq, rfl⟩
        rcases List.mem_flatMap.mp hr with ⟨v, hv, hrv⟩
        rcases List.mem_flatMap.mp hq with ⟨w, hw, hqw⟩
        have hne := h.held.need_ne (Ne.symm hji) hv hw
        cases v with
        | entry e => cases hrv
        | run r' =>
            cases w with
            | entry e => cases hqw
            | run q' =>
                rw [List.mem_singleton.mp hrv, List.mem_singleton.mp hqw]
                exact fun heq => hne (congrArg Resource.runKey heq)
  · rcases Database.holder_commit.mp hr with ⟨hheld, hji⟩
    simp only [State.commit, Function.update_of_ne hji]
    exact h.opened r j hheld

theorem UniqueInv.rollback {s : State ι} (h : UniqueInv s) (i : ι) :
    UniqueInv (s.rollback i) := by
  refine ⟨h.committed, fun j => ?_, h.held.rollback i, fun r j hr => ?_⟩
  · by_cases hji : j = i
    · subst hji
      simp only [State.view, State.rollback, Database.view_rollback_self]
      exact h.committed
    · simp only [State.view, State.rollback, Database.view_rollback_other _ hji]
      exact h.view j
  · rcases Database.holder_rollback.mp hr with ⟨hheld, hji⟩
    simp only [State.rollback, Function.update_of_ne hji]
    exact h.opened r j hheld

/-- Every step keeps the runs apart. -/
theorem UniqueInv.effect {s s' : State ι} {i : ι} {a : Statement} (h : UniqueInv s)
    (he : Effect s i a s') : UniqueInv s' := by
  cases he with
  | connect _ => exact h.goto trivial
  | @recordRun run _ _ hfree haccepts =>
      refine UniqueInv.insert (w := .run run) h hfree ?_
      rw [Tables.apply, List.map_append, List.nodup_append]
      refine ⟨h.view i, List.nodup_singleton _, ?_⟩
      intro a ha b hb
      rcases List.mem_map.mp ha with ⟨r, hr, rfl⟩
      rw [List.mem_singleton.mp hb]
      -- The index holds no run of that id yet.
      exact haccepts.1 r hr
  | lockChain _ hfree => exact h.acquire hfree trivial
  | readLast _ => exact h.goto trivial
  | insertEntry _ _ hfree _ => exact UniqueInv.insert (w := .entry _) h hfree (h.view i)
  | raise _ _ => exact h.goto trivial
  | abort _ _ => exact h.goto trivial
  | resume _ => exact h.goto trivial
  | commit _ => exact h.commit i
  | rollback _ _ => exact h.rollback i

/-- Wherever the store gets to, no run is there twice. -/
theorem uniqueInv_of_reachable {s : State ι} (h : (machine ι).Reachable s) : UniqueInv s := by
  refine h.induct ?_ ?_
  · rintro s rfl
    exact ⟨List.nodup_nil, fun _ => List.nodup_nil, Database.held_quiet _, nofun⟩
  · rintro s ⟨i, a⟩ s' hs hstep
    exact hs.effect (effect_of_step hstep)

/-! ### What a statement succeeds on -/

/-- A run that may be sent is recorded exactly if its texts are ones the columns
    take and its insert is not refused. -/
theorem not_failed_recordRun {s s' : State ι} {i : ι} {run : TriageRun}
    (hs : s.session i = .idle) (h : step s (i, .recordRun run) = some s') :
    ¬ (s'.session i).Failed ↔ RunTexts run ∧ (s.view i).AcceptsRun run := by
  simp only [step, hs] at h
  by_cases htexts : RunTexts run
  · by_cases hfree : s.db.Free (.runKey run.runId) i
    · by_cases haccepts : (s.view i).AcceptsRun run
      · rw [if_pos htexts, if_pos hfree, if_pos haccepts, Option.some.injEq] at h
        subst h
        simp only [State.insert, Function.update_self, Session.Failed, htexts, haccepts,
          not_false_eq_true, and_self]
      · rw [if_pos htexts, if_pos hfree, if_neg haccepts, Option.some.injEq] at h
        subst h
        simp only [State.goto, Function.update_self, Session.Failed, haccepts, and_false,
          not_true_eq_false]
    · rw [if_pos htexts, if_neg hfree] at h
      cases h
  · rw [if_neg htexts, Option.some.injEq] at h
    subst h
    simp only [State.goto, Function.update_self, Session.Failed, htexts, false_and,
      not_true_eq_false]

/-- So is an entry that may be sent. -/
theorem not_failed_insertEntry {s s' : State ι} {i : ι} {content : Audit.AuditEntryContent}
    {previous : Option (Int × Str)} (hs : s.session i = .read content previous)
    (h : step s (i, .insertEntry) = some s') :
    ¬ (s'.session i).Failed ↔ EntryTexts (nextEntry previous content) ∧
      (s.view i).AcceptsEntry (nextEntry previous content) := by
  simp only [step, hs] at h
  by_cases htexts : EntryTexts (nextEntry previous content)
  · by_cases hfree : s.db.Free (.seqKey (nextEntry previous content).seq) i
    · by_cases haccepts : (s.view i).AcceptsEntry (nextEntry previous content)
      · rw [if_pos htexts, if_pos hfree, if_pos haccepts, Option.some.injEq] at h
        subst h
        simp only [State.insert, Function.update_self, Session.Failed, htexts, haccepts,
          not_false_eq_true, and_self]
      · rw [if_pos htexts, if_pos hfree, if_neg haccepts, Option.some.injEq] at h
        subst h
        simp only [State.goto, Function.update_self, Session.Failed, haccepts, and_false,
          not_true_eq_false]
    · rw [if_pos htexts, if_neg hfree] at h
      cases h
  · rw [if_neg htexts, Option.some.injEq] at h
    subst h
    simp only [State.goto, Function.update_self, Session.Failed, htexts, false_and,
      not_true_eq_false]

/-- A run may be sent where nobody is waited for. -/
theorem exists_recordRun {s : State ι} {i : ι} {run : TriageRun} (hs : s.session i = .idle)
    (hfree : ∀ r, s.db.Free r i) : ∃ s', step s (i, .recordRun run) = some s' := by
  simp only [step, hs, hfree, if_true]
  split
  · split
    · exact ⟨_, rfl⟩
    · exact ⟨_, rfl⟩
  · exact ⟨_, rfl⟩

/-- So may an entry. -/
theorem exists_insertEntry {s : State ι} {i : ι} {content : Audit.AuditEntryContent}
    {previous : Option (Int × Str)} (hs : s.session i = .read content previous)
    (hfree : ∀ r, s.db.Free r i) : ∃ s', step s (i, .insertEntry) = some s' := by
  simp only [step, hs, hfree, if_true]
  split
  · split
    · exact ⟨_, rfl⟩
    · exact ⟨_, rfl⟩
  · exact ⟨_, rfl⟩

/-- The entry after the last one of a log has texts the columns take if its
    content has: both hashes are digests. -/
theorem entryTexts_nextEntry {t : Tables} (h : Logged t) {content : Audit.AuditEntryContent}
    (hnode : Storable content.node) (hexperiment : Storable content.experiment)
    (hvariant : Storable content.variant) (htrace : Storable content.traceId) :
    EntryTexts (nextEntry t.last content) := by
  refine ⟨⟨hnode, hexperiment, hvariant, htrace⟩, ?_, ?_⟩
  · have hgenesis : Storable Audit.genesis := by decide
    have hlast := last_of_logged h
    rcases h with ⟨contents, hlog⟩
    change Storable (Audit.continues t.last).2
    -- The hash that is linked to is a digest, so it is text that can be stored.
    rw [hlast]
    cases hentry : t.auditLog.getLast? with
    | none => exact hgenesis
    | some entry =>
        have hmem : entry ∈ Audit.logged contents := hlog ▸ List.mem_of_getLast? hentry
        have hdigest := Audit.digest_of_mem_logged hmem
        change Storable entry.hash
        rw [← hdigest]
        exact storable_of_printable (Sha256.printable_hexdigest _)
  · exact storable_of_printable (Sha256.printable_hexdigest _)

/-- The insert of the entry after the last one of a log is refused only where
    the column has no more places, and for its verdicts. -/
theorem acceptsEntry_nextEntry {t : Tables} (h : Logged t) (content : Audit.AuditEntryContent) :
    t.AcceptsEntry (nextEntry t.last content) ↔
      t.auditLog.length < 2147483647 ∧ (jsonb.apply (verdicts content.guardVerdicts)).isSome := by
  have hlast := last_of_logged h
  rcases h with ⟨contents, hlog⟩
  have hseqs : t.auditLog.map (·.seq) =
      (List.range t.auditLog.length).map fun n : Nat => (n : Int) + 1 := by
    rw [hlog]
    exact Audit.seq_logged contents
  have hnext : (nextEntry t.last content).seq = t.auditLog.length + 1 := by
    change (Audit.continues t.last).1 = t.auditLog.length + 1
    rw [hlast]
    exact Audit.continues_fst hseqs
  -- The numbers go up to the length of the log, and the next one is past it.
  have hfree : ∀ e ∈ t.auditLog, e.seq ≠ (nextEntry t.last content).seq := by
    intro e he
    have hmem : e.seq ∈ t.auditLog.map (·.seq) := List.mem_map_of_mem he
    rw [hseqs] at hmem
    rcases List.mem_map.mp hmem with ⟨n, hn, hseq⟩
    rw [List.mem_range] at hn
    omega
  have hroom : (nextEntry t.last content).seq ≤ 2147483647 ↔ t.auditLog.length < 2147483647 := by
    omega
  exact ⟨fun ha => ⟨hroom.mp ha.2.1, ha.2.2⟩, fun ha => ⟨hfree, hroom.mpr ha.1, ha.2⟩⟩

/-- A transaction that is the only one open waits for nothing. -/
theorem UniqueInv.free {s : State ι} (h : UniqueInv s) {i : ι}
    (hothers : ∀ j, j ≠ i → ¬ (s.session j).Open) (r : Resource) : s.db.Free r i := by
  unfold Database.Free
  cases hr : s.db.holder r with
  | none => exact Or.inl rfl
  | some j =>
      by_cases hji : j = i
      · exact Or.inr (congrArg some hji)
      · exact absurd (h.opened r j hr) (hothers j hji)

/-! ### The chain -/

/-- Wherever any number of transactions get to, whatever they did and in
    whatever order, the committed log in the order of its places is numbered
    from one without a gap, every entry carries the hash of the one before it,
    the first one the genesis, and verifying it finds nothing. -/
theorem chain_of_reachable {s : State ι} (h : (machine ι).Reachable s) :
    let rows := s.db.committed.bySeq
    rows.map (·.seq) = (List.range rows.length).map (fun n : Nat => (n : Int) + 1) ∧
      (∀ first ∈ rows.head?, first.prevHash = Audit.genesis) ∧
      (∀ n e f, rows[n]? = some e → rows[n + 1]? = some f → f.prevHash = e.hash) ∧
      (Audit.verify rows).ok = true := by
  have hcommitted := (inv_of_reachable h).log.committed
  rw [bySeq_of_logged hcommitted]
  rcases hcommitted with ⟨contents, hlog⟩
  rw [hlog]
  have hchain := Audit.intact_logged contents
  exact ⟨Audit.seq_logged contents, fun first hfirst => hchain.link_head hfirst,
    fun n e f he hf => hchain.link_succ he hf, Audit.verify_logged contents⟩

/-- Two transactions that append at once: the second waits at the lock while
    the first reads, inserts and commits. -/
def twoAppends : List (Bool × Statement) :=
  [(true, .connect), (false, .connect), (true, .lockChain (Audit.tracedContent (text "a"))),
    (true, .readLast), (true, .insertEntry), (true, .commit),
    (false, .lockChain (Audit.tracedContent (text "b"))), (false, .readLast),
    (false, .insertEntry), (false, .commit)]

set_option maxRecDepth 100000 in
theorem chain_of_reachable_twoAppends :
    ∃ s : State Bool, s.db.committed.auditLog.length = 2 ∧
      (Audit.verify s.db.committed.bySeq).ok = true := by
  have hrun : (((machine Bool).run start twoAppends).map
      fun s => s.db.committed.auditLog.length) = some 2 := by decide +kernel
  rcases Option.map_eq_some_iff.mp hrun with ⟨s, hs, hlength⟩
  have hreachable : (machine Bool).Reachable s := ⟨start, twoAppends, rfl, hs⟩
  exact ⟨s, hlength, (chain_of_reachable hreachable).2.2.2⟩

end TriageStore

end ClaimTriage
