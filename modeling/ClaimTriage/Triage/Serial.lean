import ClaimTriage.Theory.Observe
import ClaimTriage.Triage.ReadBack

/-!
# Transactions, One after the Other

Any number of transactions over the triager's store, and any number of reads
among them, look like transactions and reads done alone, one after the other.

What a block's calls tell it is written down beside the store, so that there is
something to compare: the runs it was told are recorded and the entries its
appends returned. A block that commits takes effect there, although each of its
rows was written earlier, among the statements of others. No other block can
have committed an entry since its first append, which took the chain's lock; and
none can have committed one of its runs, since it holds their index entries. So
what it was told is what it would have been told, had it made all of its calls
where it committed.

A read is one statement on a connection of its own, and sees the rows that are
committed when it is sent.

## Main definitions

* `Alone`: What a transaction writes when nobody else writes.
* `Transcript`: What a block's calls have told it.
* `transcribed`: The store, with what its blocks are told.
* `Read`, `shown`: The reads of the store, and one done at once.
* `reading`: The reads as observers of the tables.

## Theorems

* `alone_of_reachable`: What a block has pending is what it would write alone.
* `serial_of_run`: Every run of transactions and reads looks like transactions and
  reads done one after the other.
-/

namespace ClaimTriage

open Theory Text Calendar

namespace TriageStore

/-! ### A transaction alone -/

/-- What a transaction writes when nobody else writes, each row on the tables as
    those before it left them. -/
inductive Alone : Tables → List Write → Tables → Prop
  | done (t : Tables) : Alone t [] t
  | recordRun {t u : Tables} {run : TriageRun} {ws : List Write} : RunTexts run →
      t.AcceptsRun run → Alone (t.apply (.run run)) ws u → Alone t (.run run :: ws) u
  | appendEntry {t u : Tables} {content : Audit.AuditEntryContent} {ws : List Write} :
      EntryTexts (nextEntry t.last content) → t.AcceptsEntry (nextEntry t.last content) →
      Alone (t.apply (.entry (nextEntry t.last content))) ws u →
      Alone t (.entry (nextEntry t.last content) :: ws) u

/-- The columns take what a write gives them, whatever rows there are. -/
def Write.Fit : Write → Prop
  | .run r => RunTexts r ∧ (jsonb.apply (verdicts r.guardVerdicts)).isSome
  | .entry e => Kept e ∧ e.seq ≤ 2147483647

/-- What comes first in a log is a log. -/
theorem logged_of_append {t u : Tables} {rest : List Audit.AuditEntry}
    (h : u.auditLog = t.auditLog ++ rest) (hu : Logged u) : Logged t := by
  rcases hu with ⟨contents, hlog⟩
  rw [h] at hlog
  clear h
  induction contents using List.reverseRecOn generalizing rest with
  | nil => exact ⟨[], (List.append_eq_nil_iff.mp hlog).1⟩
  | append_singleton contents content ih =>
      rcases List.eq_nil_or_concat rest with rfl | ⟨rest', last, rfl⟩
      · rw [List.append_nil] at hlog
        exact ⟨contents ++ [content], hlog⟩
      · rw [Audit.logged_concat, Audit.extend, List.concat_eq_append, ← List.append_assoc] at hlog
        exact ih (List.append_inj' hlog rfl).1

theorem logged_of_entry {t : Tables} {entry : Audit.AuditEntry}
    (h : Logged (t.apply (.entry entry))) : Logged t := by
  have hlog : (t.apply (.entry entry)).auditLog = t.auditLog ++ [entry] := rfl
  exact logged_of_append hlog h

/-- The last entry of a log is the one that follows those before it. -/
theorem exists_nextEntry {t : Tables} {entry : Audit.AuditEntry}
    (h : Logged (t.apply (.entry entry))) : ∃ content, entry = nextEntry t.last content := by
  have ht : Logged t := logged_of_entry h
  rcases h with ⟨contents, hlog⟩
  rcases List.eq_nil_or_concat contents with rfl | ⟨contents', content, rfl⟩
  · exact absurd hlog (List.append_ne_nil_of_right_ne_nil _ (List.cons_ne_nil _ _))
  · rw [List.concat_eq_append, Audit.logged_concat, Audit.extend] at hlog
    rcases List.append_inj' hlog rfl with ⟨hbefore, hlast⟩
    refine ⟨content, ?_⟩
    rw [nextEntry, last_of_logged ht, hbefore]
    exact List.singleton_inj.mp hlast

theorem auditLog_foldl (ws : List Write) (t : Tables) :
    (ws.foldl Tables.apply t).auditLog = t.auditLog ++ ws.flatMap Write.entries := by
  induction ws generalizing t with
  | nil => exact (List.append_nil _).symm
  | cons w ws ih =>
      rw [List.foldl_cons, ih, auditLog_appendOnly, List.append_assoc, List.flatMap_cons]

theorem triageRuns_foldl (ws : List Write) (t : Tables) :
    (ws.foldl Tables.apply t).triageRuns = t.triageRuns ++ ws.flatMap Write.runs := by
  induction ws generalizing t with
  | nil => exact (List.append_nil _).symm
  | cons w ws ih =>
      rw [List.foldl_cons, ih, triageRuns_appendOnly, List.append_assoc, List.flatMap_cons]

/-- Rows that the columns take, that leave a log, and that leave no run twice, are
    what a transaction could have written alone. -/
theorem alone_of_foldl {ws : List Write} {t : Tables} (hfit : ∀ w ∈ ws, w.Fit)
    (hlogged : Logged (ws.foldl Tables.apply t))
    (hnodup : ((ws.foldl Tables.apply t).triageRuns.map (·.runId)).Nodup) :
    Alone t ws (ws.foldl Tables.apply t) := by
  induction ws generalizing t with
  | nil => exact .done t
  | cons w ws ih =>
      rw [List.forall_mem_cons] at hfit
      have hrest : Alone (t.apply w) ws (ws.foldl Tables.apply (t.apply w)) :=
        ih hfit.2 hlogged hnodup
      have hnext : Logged (t.apply w) := logged_of_append (auditLog_foldl ws _) hlogged
      cases w with
      | run run =>
          refine .recordRun hfit.1.1 ⟨fun r hr => ?_, hfit.1.2⟩ hrest
          -- A run that was there before would be there twice.
          rw [List.foldl_cons, triageRuns_foldl, Tables.apply, List.map_append, List.map_append,
            List.nodup_append] at hnodup
          exact (List.nodup_append.mp hnodup.1).2.2 _ (List.mem_map_of_mem hr) _
            (List.mem_singleton_self _)
      | entry entry =>
          rcases exists_nextEntry hnext with ⟨content, rfl⟩
          have hlog : Logged t := logged_of_entry hnext
          have hroom : t.auditLog.length < 2147483647 := by
            have hseqs := hnext
            rcases hseqs with ⟨contents, hcontents⟩
            have hnumbers := Audit.seq_logged contents
            rw [← hcontents, Tables.apply, List.map_append, List.length_append,
              List.length_singleton, List.range_succ, List.map_append] at hnumbers
            have hlast := (List.append_inj' hnumbers rfl).2
            simp only [List.map_cons, List.map_nil, List.cons.injEq, and_true] at hlast
            have hbound := hfit.1.2
            omega
          exact .appendEntry hfit.1.1.1
            ((acceptsEntry_nextEntry hlog content).mpr ⟨hroom, hfit.1.1.2⟩) hrest

variable {ι : Type} [DecidableEq ι]

/-- Every row a block has pending is one its columns took. -/
theorem fit_of_effect {s s' : State ι} {i : ι} {a : Statement}
    (h : ∀ j, ∀ w ∈ s.db.pending j, w.Fit) (he : Effect s i a s') :
    ∀ j, ∀ w ∈ s'.db.pending j, w.Fit := by
  intro j w hw
  by_cases hji : j = i
  · subst hji
    cases he with
    | recordRun _ htexts _ haccepts =>
        simp only [State.insert, Database.pending_write_self, Database.pending_acquire,
          List.mem_append, List.mem_singleton] at hw
        rcases hw with hw | rfl
        · exact h j w hw
        · exact ⟨htexts, haccepts.2⟩
    | insertEntry _ htexts _ haccepts =>
        simp only [State.insert, Database.pending_write_self, Database.pending_acquire,
          List.mem_append, List.mem_singleton] at hw
        rcases hw with hw | rfl
        · exact h j w hw
        · exact ⟨⟨htexts, haccepts.2.2⟩, haccepts.2.1⟩
    | commit _ =>
        simp only [State.commit, Database.pending_commit_self, List.not_mem_nil] at hw
    | rollback _ _ =>
        simp only [State.rollback, Database.pending_rollback_self, List.not_mem_nil] at hw
    | connect _ | lockChain _ _ | readLast _ | raise _ _ | abort _ _ | resume _ => exact h j w hw
  · rw [(he.frame.1 j hji).2] at hw
    exact h j w hw

/-- What a block has pending is what it would write alone, on what is committed. -/
theorem alone_of_reachable {s : State ι} (h : (machine ι).Reachable s) (i : ι) :
    Alone s.db.committed (s.db.pending i) (s.view i) := by
  have hfit : ∀ j, ∀ w ∈ s.db.pending j, w.Fit := by
    refine h.induct (P := fun s => ∀ j, ∀ w ∈ s.db.pending j, w.Fit) ?_ ?_
    · rintro s rfl j w hw
      cases hw
    · rintro s ⟨i, a⟩ s' hs hstep
      exact fit_of_effect hs (effect_of_step hstep)
  exact alone_of_foldl (hfit i) ((inv_of_reachable h).log.view i)
    ((uniqueInv_of_reachable h).view i)

/-! ### What a block is told -/

/-- What a block's calls have told it, and whether its transaction was committed. -/
structure Transcript where
  told : List Write
  committed : Bool

/-- A call of the block returns, or its transaction ends. -/
def Transcript.note (before : Session) (a : Statement) (after : Session) (t : Transcript) :
    Transcript :=
  match a, before, after with
  | .recordRun run, .idle, .idle => { t with told := t.told ++ [.run run] }
  | .insertEntry, .read content previous, .idle =>
    { t with told := t.told ++ [.entry (nextEntry previous content)] }
  | .commit, .idle, .closed => { t with committed := true }
  | _, _, _ => t

/-- What raises is not told. -/
theorem Transcript.note_of_failed {before after : Session} {a : Statement} (h : after.Failed)
    (t : Transcript) : t.note before a after = t := by
  unfold Transcript.note
  split
  · exact h.elim
  · exact h.elim
  · exact h.elim
  · rfl

/-- What a committed block was told. -/
def Transcript.work (t : Transcript) : Option (List Write) :=
  if t.committed then some t.told else none

/-- The store, with what its blocks are told. -/
def transcribed (ι : Type) [DecidableEq ι] :
    Machine (State ι × (ι → Transcript)) (ι × Statement) :=
  (machine ι).noted (fun s act s' w => Function.update w act.1
    ((w act.1).note (s.session act.1) act.2 (s'.session act.1))) fun _ => ⟨[], false⟩

/-- A block that is not over was told of what it has pending. -/
def Told (s : State ι) (w : ι → Transcript) : Prop :=
  ∀ i, s.session i ≠ .closed → w i = ⟨s.db.pending i, false⟩

/-- A block that is over does nothing more. -/
theorem Effect.not_closed {s s' : State ι} {i : ι} {a : Statement} (he : Effect s i a s') :
    s.session i ≠ .closed := by
  intro hclosed
  cases he with
  | connect hs | recordRun hs _ _ _ | lockChain hs _ | readLast hs | insertEntry hs _ _ _
  | resume hs | commit hs =>
      rw [hclosed] at hs
      cases hs
  | raise ho _ | abort ho _ | rollback ho _ =>
      rw [hclosed] at ho
      exact ho

/-- A step tells its block of what it adds to what the block has pending; and one
    that ends the block's transaction leaves it told of what is committed with it,
    or of nothing. -/
theorem note_of_effect {s s' : State ι} {i : ι} {a : Statement} (he : Effect s i a s')
    {t : Transcript} (ht : t = ⟨s.db.pending i, false⟩) :
    (s'.session i ≠ .closed ∧ s'.db.committed = s.db.committed ∧
      t.note (s.session i) a (s'.session i) = ⟨s'.db.pending i, false⟩) ∨
    (s'.session i = .closed ∧ s'.db.committed = s.db.committed ∧
      (t.note (s.session i) a (s'.session i)).committed = false) ∨
    (s'.session i = .closed ∧ s'.db.committed = s.view i ∧
      t.note (s.session i) a (s'.session i) = ⟨s.db.pending i, true⟩) := by
  subst ht
  cases he with
  | connect _ | lockChain _ _ | readLast _ | resume _ =>
      refine Or.inl ⟨?_, rfl, rfl⟩
      simp only [State.goto, Function.update_self, ne_eq, reduceCtorEq, not_false_eq_true]
  | recordRun hs _ _ _ =>
      refine Or.inl ⟨?_, rfl, ?_⟩
      · simp only [State.insert, Function.update_self, ne_eq, reduceCtorEq, not_false_eq_true]
      · simp only [State.insert, Function.update_self, hs, Transcript.note,
          Database.pending_write_self, Database.pending_acquire]
  | insertEntry hs _ _ _ =>
      refine Or.inl ⟨?_, rfl, ?_⟩
      · simp only [State.insert, Function.update_self, ne_eq, reduceCtorEq, not_false_eq_true]
      · simp only [State.insert, Function.update_self, hs, Transcript.note,
          Database.pending_write_self, Database.pending_acquire]
  | raise _ _ | abort _ _ =>
      refine Or.inl ⟨?_, rfl, Transcript.note_of_failed ?_ _⟩
      · simp only [State.goto, Function.update_self, ne_eq, reduceCtorEq, not_false_eq_true]
      · simp only [State.goto, Function.update_self, Session.Failed]
  | commit hs =>
      refine Or.inr (Or.inr ⟨?_, rfl, ?_⟩)
      · simp only [State.commit, Function.update_self]
      · simp only [State.commit, Function.update_self, hs, Transcript.note]
  | rollback _ ha =>
      refine Or.inr (Or.inl ⟨?_, rfl, ?_⟩)
      · simp only [State.rollback, Function.update_self]
      · rcases ha with rfl | ⟨rfl, hs⟩
        · rfl
        · simp only [hs, Transcript.note]

/-- A block that is not over was told of what it has pending, and has committed
    nothing. -/
theorem told_of_reachable {s : State ι × (ι → Transcript)} (h : (transcribed ι).Reachable s) :
    Told s.1 s.2 := by
  refine h.induct (P := fun s => Told s.1 s.2) ?_ ?_
  · rintro ⟨s, w⟩ ⟨rfl, rfl⟩ i _
    rfl
  · rintro ⟨s, w⟩ ⟨i, a⟩ _ hs hstep j hj
    rcases Machine.step_of_noted hstep with ⟨s', hstore, rfl⟩
    have he : Effect s i a s' := effect_of_step hstore
    by_cases hji : j = i
    · subst hji
      simp only [Function.update_self]
      rcases note_of_effect he (hs j he.not_closed) with ⟨_, _, hnote⟩ | ⟨hclosed, _⟩ | ⟨hclosed, _⟩
      · exact hnote
      · exact absurd hclosed hj
      · exact absurd hclosed hj
    · rcases he.frame.1 j hji with ⟨hsession, hpending⟩
      simp only [Function.update_of_ne hji, hpending]
      exact hs j (hsession ▸ hj)

/-- A block takes effect at its commit. -/
theorem exists_pointed {s s' : State ι × (ι → Transcript)} {as : List (ι × Statement)}
    (hinit : (transcribed ι).init s) (hrun : (transcribed ι).run s as = some s') (i : ι) :
    ∃ point, Machine.Pointed (fun t (_ : Unit) told u => Alone t told u) (fun _ => ())
      (fun s => s.1.db.committed) (fun s i => (s.2 i).work) (transcribed ι) s as s' i point := by
  refine Machine.exists_pointed_of_told ?_ ?_ hinit ?_ hrun
  · rintro ⟨t, w⟩ a _ ht hstep
    rcases Machine.step_of_noted hstep with ⟨t', hstore, rfl⟩
    have he : Effect t i a t' := effect_of_step hstore
    have htold : w i = ⟨t.db.pending i, false⟩ := told_of_reachable ht i he.not_closed
    simp only [Function.update_self]
    rcases note_of_effect he htold with ⟨_, hsame, hnote⟩ | ⟨_, hsame, hnote⟩ | ⟨_, hview, hnote⟩
    · refine Or.inl ⟨?_, hsame⟩
      rw [hnote, htold]
      rfl
    · refine Or.inl ⟨?_, hsame⟩
      simp only [Transcript.work, hnote, Bool.false_eq_true, if_false]
      simp only [htold, Bool.false_eq_true, if_false]
    · refine Or.inr ⟨?_, t.db.pending i, ?_, ?_⟩
      · simp only [htold, Transcript.work, Bool.false_eq_true, if_false]
      · simp only [hnote, Transcript.work, if_true]
      · rw [hview]
        exact alone_of_reachable (Machine.reachable_of_noted ht) i
  · rintro ⟨t, w⟩ j b _ hji _ hstep
    rcases Machine.step_of_noted hstep with ⟨t', _, rfl⟩
    simp only [Function.update_of_ne hji.symm]
  · rw [hinit.2]
    rfl

/-! ### Reads -/

/-- The reads of the store. -/
inductive Read where
  | readRun (runId : Uuid)
  | entries
  deriving DecidableEq

/-- What a read answers with. -/
inductive Shown where
  | run (run : Option TriageRun)
  | entries (entries : List Audit.AuditEntry)

/-- What a session reads of a run's row. -/
def readRow (zone : Int → Offset) (row : TriageRun) : Option TriageRun :=
  ((jsonb.apply (verdicts row.guardVerdicts)).bind DocumentVerdicts.wire.array.decode).bind
    fun guardVerdicts => ((timestamptz row.startedAt).bind (timestamptzRead zone)).bind
      fun startedAt => ((timestamptz row.completedAt).bind (timestamptzRead zone)).map
        fun completedAt => { row with
          guardVerdicts := guardVerdicts, startedAt := startedAt, completedAt := completedAt }

/-- The run an identifier names, if it was recorded at all. -/
def readRun (zone : Int → Offset) (t : Tables) (runId : Uuid) : Option (Option TriageRun) :=
  match t.triageRuns.find? fun row => row.runId = runId with
  | none => some none
  | some row => (readRow zone row).map some

/-- A read done at once, if what there is can be read. -/
def shown (zone : Int → Offset) (t : Tables) : Read → Option Shown
  | .readRun runId => (readRun zone t runId).map .run
  | .entries => (entries zone t).map .entries

/-- How far a read has got. `fetched` has what it will answer once its connection
    is closed. -/
inductive Reading where
  | waiting
  | connected
  | fetched (given : Shown)
  | returned (given : Shown)
  | failed

/-- The read is under way. -/
def Reading.Open : Reading → Prop
  | returned _ | failed => False
  | _ => True

instance (r : Reading) : Decidable r.Open := by
  cases r <;> simp only [Reading.Open] <;> infer_instance

/-- What the read has answered or will answer, once it has read it. -/
def Reading.seen : Reading → Option Shown
  | fetched given | returned given => some given
  | _ => none

/-- What the read has answered. -/
def Reading.told : Reading → Option Shown
  | returned given => some given
  | _ => none

/-- What a read does next. -/
inductive Look where
  | connect
  | select
  | commit
  | fail
  deriving DecidableEq

/-- What comes of a read's next statement. -/
def look (zone : Int → Offset) (t : Tables) (asked : Read) (r : Reading) (next : Look) :
    Option Reading :=
  match next, r with
  | .connect, .waiting => some .connected
  -- A row that cannot be read raises.
  | .select, .connected => some (((shown zone t asked).map Reading.fetched).getD .failed)
  | .commit, .fetched given => some (.returned given)
  | .fail, r => if r.Open then some .failed else none
  | _, _ => none

/-- The reads as observers of the tables. -/
def reading (zone : Int → Offset) : Seeing Tables Read Shown Reading Look where
  begins := .waiting
  look := look zone
  seen := Reading.seen
  told := Reading.told
  seen_begins := rfl
  seen_of_told r a h := by
    cases r with
    | returned given => exact h
    | _ => cases h

/-- What a read has fetched is what a read at once shows there. -/
theorem shown_of_look {zone : Int → Offset} {t : Tables} {asked : Read} {r r' : Reading}
    {next : Look} {given : Shown} (h : look zone t asked r next = some r')
    (hseen : r'.seen = some given) : r.seen = some given ∨ shown zone t asked = some given := by
  unfold look at h
  split at h
  · cases h
    cases hseen
  · cases h
    cases hshown : shown zone t asked with
    | none =>
        rw [hshown] at hseen
        cases hseen
    | some found =>
        rw [hshown] at hseen
        exact Or.inr hseen
  · cases h
    exact Or.inl hseen
  · split at h
    · cases h
      cases hseen
    · cases h
  · cases h

section Runs

variable {κ : Type} [DecidableEq κ]

/-- The store under any number of blocks and a family of reads. -/
def served (ι : Type) [DecidableEq ι] (zone : Int → Offset) (reads : κ → Read) :
    Machine ((State ι × (ι → Transcript)) × (κ → Reading)) ((ι ⊕ κ) × (Statement ⊕ Look)) :=
  (transcribed ι).observed (fun s => s.1.db.committed) (reading zone) reads

/-- Nothing written yet, nothing told and nothing asked. -/
def begun : (State ι × (ι → Transcript)) × (κ → Reading) :=
  ((start, fun _ => ⟨[], false⟩), fun _ => .waiting)

/-- However any number of transactions and reads interleave, they look like
    transactions and reads done alone, one after the other: a serial history of them
    leaves what they have left; each block that committed was told in it what it was
    told, and each read that was answered is shown what it answered; no others are
    in it; and one that was over before another one began comes first. -/
theorem serial_of_run {zone : Int → Offset} {reads : κ → Read}
    {as : List ((ι ⊕ κ) × (Statement ⊕ Look))}
    {s : (State ι × (ι → Transcript)) × (κ → Reading)}
    (hrun : (served ι zone reads).run begun as = some s) :
    ∃ history, Machine.Linearizes
      (Either (fun t (_ : Unit) told u => Alone t told u)
        fun t asked given => shown zone t asked = some given)
      (Sum.map (fun _ => ()) reads) (fun s => s.1.1.db.committed)
      (Machine.answers (fun s i => (s.2 i).work) (reading zone)) begun as s history := by
  have hinit : (served ι zone reads).init begun := ⟨⟨rfl, rfl⟩, rfl⟩
  refine Machine.exists_linearizes_observed (I := fun _ _ _ => True) ?_ (fun _ _ => trivial)
    (fun _ _ _ _ _ _ _ _ _ => trivial) (fun _ _ _ _ _ _ _ => trivial) ?_ hinit hrun
  · exact fun s as s' hinit hrun i => exists_pointed hinit hrun i
  · exact fun t asked r next r' given _ h hseen => shown_of_look h hseen

/-- A run to record. -/
def tracedRun (runId : Uuid) (traceId : Str) : TriageRun where
  runId := runId
  claimId := ⟨1, Uuid.one_valid⟩
  experiment := text "baseline"
  variant := text "replay"
  status := .triaged
  guardVerdicts := []
  traceId := traceId
  startedAt := ⟨.newYear, .noon, some Offset.utc⟩
  completedAt := ⟨.newYear, .noon, some Offset.utc⟩

/-- Two blocks that record a run each before either appends an entry, a read of the
    log while the first has its entry pending, and one that is shown it and answers
    when the second has committed too. -/
def overlapped : List ((Bool ⊕ Bool) × (Statement ⊕ Look)) :=
  let first := fun a => (Sum.inl true, Sum.inl a)
  let second := fun a => (Sum.inl false, Sum.inl a)
  [first .connect, second .connect, first (.recordRun (tracedRun ⟨2, Uuid.two_valid⟩ (text "a"))),
    second (.recordRun (tracedRun ⟨7, Uuid.seven_valid⟩ (text "b"))),
    first (.lockChain (Audit.tracedContent (text "a"))), first .readLast, first .insertEntry,
    (.inr false, .inr .connect), (.inr false, .inr .select), (.inr false, .inr .commit),
    first .commit, (.inr true, .inr .connect), (.inr true, .inr .select),
    second (.lockChain (Audit.tracedContent (text "b"))), second .readLast, second .insertEntry,
    second .commit, (.inr true, .inr .commit)]

/-- How many entries a read has answered with. -/
def Reading.answered (r : Reading) : Option Nat :=
  match r.told with
  | some (.entries es) => some es.length
  | _ => none

set_option maxRecDepth 100000 in
theorem serial_of_run_overlapped :
    ∃ s history, s.1.1.db.committed.auditLog.length = 2 ∧
      (s.2 false).answered = some 0 ∧ (s.2 true).answered = some 1 ∧
      Machine.Linearizes
        (Either (fun t (_ : Unit) told u => Alone t told u)
          fun t asked given => shown (fun _ => Offset.utc) t asked = some given)
        (Sum.map (fun _ => ()) fun _ => Read.entries) (fun s => s.1.1.db.committed)
        (Machine.answers (fun s i => (s.2 i).work) (reading fun _ => Offset.utc)) begun overlapped
        s history := by
  have hrun : ((served Bool (fun _ => Offset.utc) fun _ => Read.entries).run begun overlapped).map
      (fun s => (s.1.1.db.committed.auditLog.length, (s.2 false).answered,
        (s.2 true).answered)) = some (2, some 0, some 1) := by decide +kernel
  rcases Option.map_eq_some_iff.mp hrun with ⟨s, hs, hfacts⟩
  simp only [Prod.mk.injEq] at hfacts
  rcases serial_of_run hs with ⟨history, hhistory⟩
  exact ⟨s, history, hfacts.1, hfacts.2.1, hfacts.2.2, hhistory⟩

end Runs

end TriageStore

end ClaimTriage
