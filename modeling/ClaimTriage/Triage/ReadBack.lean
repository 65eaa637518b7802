import ClaimTriage.Triage.Store

/-!
# Reading the Log Back

What a later reader of the log gets, from what the appends wrote, column by
column.

A text comes back as it was, and a JSON column keeps of a string what its code
units read as, which does not show in the text an entry is hashed over. A time
column is where it goes wrong: it keeps the instant and answers at the offset
of the reading session's time zone, and the text an entry is hashed over has
that offset in it. What was recorded in UTC therefore hashes to what it says
exactly for a reader that is at UTC at the instants the log records.

## Main definitions

* `readEntry`, `entries`: What a session reads of a row, and of the log.
* `ReadsBack`: What is read hashes to what it says, and verifies.
* `AtUtc`: The session is at UTC at every recorded instant.

## Theorems

* `kept_of_reachable`: Every entry of the log is one its columns took.
* `canonical_settledEntry`: What a JSON column makes of an entry does not show
  in its text.
* `readsBack_of_atUtc`, `atUtc_of_readsBack`: The log reads back exactly for a
  reader at UTC.
-/

namespace ClaimTriage

open Theory Text Calendar

namespace TriageStore

variable {ι : Type} [DecidableEq ι]

/-- What a session reads of a row, the session's time zone given as its offset
    at every instant. -/
def readEntry (zone : Int → Offset) (row : Audit.AuditEntry) : Option Audit.AuditEntry :=
  ((jsonb.apply (verdicts row.guardVerdicts)).bind DocumentVerdicts.wire.array.decode).bind
    fun guardVerdicts => ((timestamptz row.recordedAt).bind (timestamptzRead zone)).map
      fun recordedAt => { row with guardVerdicts := guardVerdicts, recordedAt := recordedAt }

/-- The whole chain as a session reads it, oldest first. -/
def entries (zone : Int → Offset) (t : Tables) : Option (List Audit.AuditEntry) :=
  t.bySeq.mapM (readEntry zone)

/-- What a session reads of the log hashes to what it says, and verifies. -/
def ReadsBack (zone : Int → Offset) (t : Tables) : Prop :=
  ∃ es, entries zone t = some es ∧ (∀ e ∈ es, Audit.digest e = e.hash) ∧
    (Audit.verify es).ok = true

/-- The session is at UTC at every instant the log records. -/
def AtUtc (zone : Int → Offset) (t : Tables) : Prop :=
  ∀ e ∈ t.auditLog, ∀ instant ∈ e.recordedAt.instant, zone instant = Offset.utc

/-- The columns took the entry. -/
def Kept (entry : Audit.AuditEntry) : Prop :=
  EntryTexts entry ∧ (jsonb.apply (verdicts entry.guardVerdicts)).isSome

/-- Every entry of the log, committed or pending, is one its columns took. -/
theorem kept_effect {s s' : State ι} {i : ι} {a : Statement}
    (h : s.db.Rows Tables.auditLog Write.entries Kept) (he : Effect s i a s') :
    s'.db.Rows Tables.auditLog Write.entries Kept := by
  cases he with
  | recordRun _ _ _ _ => exact (h.acquire _ _).write fun r hr => by cases hr
  | lockChain _ _ => exact h.acquire _ _
  | insertEntry _ htexts _ haccepts =>
      refine (h.acquire _ _).write fun r hr => ?_
      rw [List.mem_singleton.mp hr]
      exact ⟨htexts, haccepts.2.2⟩
  | commit _ => exact h.commit auditLog_appendOnly _
  | rollback _ => exact h.rollback _
  | connect _ | readLast _ | raise _ | abort _ | resume _ => exact h

theorem kept_of_reachable {s : State ι} (h : (machine ι).Reachable s) :
    ∀ e ∈ s.db.committed.auditLog, Kept e := by
  have hrows : s.db.Rows Tables.auditLog Write.entries Kept := by
    refine h.induct (P := fun s => s.db.Rows Tables.auditLog Write.entries Kept) ?_ ?_
    · rintro s rfl
      exact ⟨fun e he => absurd he List.not_mem_nil, fun _ e he => absurd he List.not_mem_nil⟩
    · rintro s ⟨i, a⟩ s' hs hstep
      exact kept_effect hs (effect_of_step hstep)
  exact hrows.committed

/-! ### What the columns make of an entry -/

/-- An entry with its verdicts as a JSON column keeps them. -/
def settledEntry (entry : Audit.AuditEntry) : Audit.AuditEntry :=
  { entry with guardVerdicts := entry.guardVerdicts.map (DocumentVerdicts.mapText settled) }

/-- What a JSON column makes of an entry does not show in its text. -/
theorem canonical_settledEntry (entry : Audit.AuditEntry) :
    Audit.canonical (settledEntry entry) = Audit.canonical entry := by
  have hverdicts : Json.Alike false (verdicts (settledEntry entry).guardVerdicts)
      (verdicts entry.guardVerdicts) := by
    refine Json.alike_arr ?_
    simp only [settledEntry, Codec.list, List.map_map, List.forall₂_map_left_iff,
      List.forall₂_map_right_iff, List.forall₂_same]
    exact fun d _ => d.alike_settled false
  have hrefl : ∀ vs, List.Forall₂ (Json.Alike false) vs vs := fun vs =>
    List.forall₂_same.mpr fun v _ => Json.alike_refl false v
  -- The verdicts are the sixth of the fields, and the others are as they were.
  have hfields : List.Forall₂ (Json.Alike false)
      [.str entry.claimId.text, .str entry.runId.text, .str entry.node, .str entry.actor.value,
        .str entry.status.value, verdicts (settledEntry entry).guardVerdicts,
        .str entry.experiment, .str entry.variant, .str entry.traceId,
        .str entry.recordedAt.isoformat, .int entry.seq, .str entry.prevHash]
      [.str entry.claimId.text, .str entry.runId.text, .str entry.node, .str entry.actor.value,
        .str entry.status.value, verdicts entry.guardVerdicts,
        .str entry.experiment, .str entry.variant, .str entry.traceId,
        .str entry.recordedAt.isoformat, .int entry.seq, .str entry.prevHash] :=
    .cons rfl (.cons rfl (.cons rfl (.cons rfl (.cons rfl (.cons hverdicts (hrefl _))))))
  have halike : Json.Alike false (.obj (Audit.fields.zip _)) (.obj (Audit.fields.zip _)) :=
    Json.alike_obj hfields
  exact halike

theorem digest_settledEntry (entry : Audit.AuditEntry) :
    Audit.digest (settledEntry entry) = Audit.digest entry := by
  rw [Audit.digest, Audit.digest, canonical_settledEntry]

/-- A kept entry is read back with its verdicts settled, and its time as the
    time column answers it. -/
theorem readEntry_eq (zone : Int → Offset) {entry : Audit.AuditEntry} (h : Kept entry) :
    readEntry zone entry = ((timestamptz entry.recordedAt).bind (timestamptzRead zone)).map
      fun recordedAt => { settledEntry entry with recordedAt := recordedAt } := by
  have htexts : ∀ d ∈ entry.guardVerdicts, ∀ t ∈ d.texts, jsonb.text t = some (settled t) :=
    fun d hd t ht => jsonb_text_of_isSome (DocumentVerdicts.text_isSome h.2 d hd t ht)
  rcases reads_documents htexts with ⟨kept, hkept, hread⟩
  have hdecode : (jsonb.apply (verdicts entry.guardVerdicts)).bind
      DocumentVerdicts.wire.array.decode =
        some (entry.guardVerdicts.map (DocumentVerdicts.mapText settled)) := by
    rw [verdicts, hkept, Option.bind_some, hread]
  rw [readEntry, hdecode, Option.bind_some]
  rfl

/-- Nothing a reader gets of a kept entry holds a surrogate pair. -/
theorem noPairs_settledEntry {entry : Audit.AuditEntry} (h : Kept entry) (recordedAt : DateTime) :
    Audit.NoPairs { settledEntry entry with recordedAt := recordedAt } := by
  rcases h with ⟨⟨⟨hnode, hexperiment, hvariant, htrace⟩, hprev, _⟩, _⟩
  refine ⟨hnode.noPair, fun d hd => ?_, hexperiment.noPair, hvariant.noPair, htrace.noPair,
    hprev.noPair⟩
  rcases List.mem_map.mp hd with ⟨d, _, rfl⟩
  exact d.noPair_mapText

/-- A time recorded in UTC is answered as it was to a session at UTC. -/
theorem timestamptzRead_utc {zone : Int → Offset} {t : DateTime}
    (hutc : t.offset = some Offset.utc)
    (hzone : ∀ instant ∈ t.instant, zone instant = Offset.utc) :
    (timestamptz t).bind (timestamptzRead zone) = some t := by
  rcases t with ⟨date, clock, offset⟩
  cases hutc
  have hinstant := hzone _ rfl
  simp only [timestamptz, DateTime.instant, Option.map_some, Option.bind_some, timestamptzRead]
  rw [hinstant, atOffset_instant]

/-- A session that is at UTC at every recorded instant reads every entry with
    its verdicts settled and nothing else changed. -/
theorem entries_of_atUtc {zone : Int → Offset} {t : Tables} (hlogged : Logged t)
    (hkept : ∀ e ∈ t.auditLog, Kept e)
    (hutc : ∀ e ∈ t.auditLog, e.recordedAt.offset = some Offset.utc) (h : AtUtc zone t) :
    entries zone t = some (t.auditLog.map settledEntry) := by
  rw [entries, bySeq_of_logged hlogged]
  have hread : ∀ e ∈ t.auditLog, readEntry zone e = some (settledEntry e) := by
    intro e he
    rw [readEntry_eq zone (hkept e he), timestamptzRead_utc (hutc e he) (h e he)]
    rfl
  generalize t.auditLog = log at hread
  induction log with
  | nil => rfl
  | cons e rest ih =>
      rcases List.forall_mem_cons.mp hread with ⟨he, hrest⟩
      rw [List.mapM_cons, he, ih hrest]
      rfl

/-- A session at UTC reads the log back. -/
theorem readsBack_of_atUtc {zone : Int → Offset} {t : Tables} (hlogged : Logged t)
    (hkept : ∀ e ∈ t.auditLog, Kept e)
    (hutc : ∀ e ∈ t.auditLog, e.recordedAt.offset = some Offset.utc) (h : AtUtc zone t) :
    ReadsBack zone t := by
  refine ⟨_, entries_of_atUtc hlogged hkept hutc h, fun e he => ?_, ?_⟩
  · rcases hlogged with ⟨contents, hlog⟩
    rcases List.mem_map.mp he with ⟨row, hrow, rfl⟩
    rw [digest_settledEntry, Audit.digest_of_mem_logged (hlog ▸ hrow)]
    rfl
  · rcases hlogged with ⟨contents, hlog⟩
    have hsame := Audit.verify_map (f := settledEntry) (fun _ => rfl) (fun _ => rfl)
      (fun _ => rfl) digest_settledEntry t.auditLog
    rw [hsame, hlog]
    exact Audit.verify_logged contents

/-- Each entry read is what its row is read as. -/
theorem readEntry_of_entries {zone : Int → Offset} {t : Tables} {es : List Audit.AuditEntry}
    (hlogged : Logged t) (h : entries zone t = some es) {row : Audit.AuditEntry}
    (hrow : row ∈ t.auditLog) : ∃ e ∈ es, readEntry zone row = some e := by
  rw [entries, bySeq_of_logged hlogged] at h
  generalize t.auditLog = log at h hrow
  induction log generalizing es with
  | nil => cases hrow
  | cons r rest ih =>
      rw [List.mapM_cons, Option.bind_eq_bind, Option.bind_eq_some_iff] at h
      rcases h with ⟨e, he, hrest⟩
      rw [Option.bind_eq_bind, Option.bind_eq_some_iff] at hrest
      rcases hrest with ⟨es', hes', hcons⟩
      cases hcons
      rcases List.mem_cons.mp hrow with rfl | hrow
      · exact ⟨e, List.mem_cons_self, he⟩
      · rcases ih hes' hrow with ⟨f, hf, hread⟩
        exact ⟨f, List.mem_cons_of_mem _ hf, hread⟩

/-- A session that reads the log back is at UTC, as long as no entry it reads
    collides with the one that was written. -/
theorem atUtc_of_readsBack {zone : Int → Offset} {t : Tables} (hlogged : Logged t)
    (hkept : ∀ e ∈ t.auditLog, Kept e)
    (hutc : ∀ e ∈ t.auditLog, e.recordedAt.offset = some Offset.utc)
    (hcollision : ∀ row ∈ t.auditLog, ∀ e, readEntry zone row = some e →
      Audit.digest e = Audit.digest row → Audit.canonical e = Audit.canonical row)
    (h : ReadsBack zone t) : AtUtc zone t := by
  rcases h with ⟨es, hes, hdigest, _⟩
  intro row hrow instant hinstant
  rcases readEntry_of_entries hlogged hes hrow with ⟨e, he, hread⟩
  have hrowDigest : Audit.digest row = row.hash := by
    rcases hlogged with ⟨contents, hlog⟩
    exact Audit.digest_of_mem_logged (hlog ▸ hrow)
  have hread' := hread
  rw [readEntry_eq zone (hkept row hrow)] at hread'
  rcases Option.map_eq_some_iff.mp hread' with ⟨recordedAt, htime, hentry⟩
  -- The entry that was read carries the row's hash, so its digest is the row's.
  have hhash : e.hash = row.hash := by
    rw [← hentry]
    rfl
  have hcanonical := hcollision row hrow e hread (by rw [hdigest e he, hhash, hrowDigest])
  rw [← canonical_settledEntry row] at hcanonical
  have hpairs := noPairs_settledEntry (hkept row hrow)
  have hcontent := (Audit.canonical_inj (hentry ▸ hpairs recordedAt) (hpairs row.recordedAt)
    hcanonical).1
  have hrecorded : recordedAt = row.recordedAt := by
    rw [← hentry] at hcontent
    exact congrArg Audit.AuditEntryContent.recordedAt hcontent
  -- And the time column answers at the session's own offset.
  rw [timestamptz, hinstant, Option.bind_some, timestamptzRead] at htime
  have hoffset := offset_of_atOffset htime
  rw [hrecorded, hutc row hrow, Option.some.injEq] at hoffset
  exact hoffset.symm

/-- Wherever the store gets to with everything recorded in UTC, a session reads
    the log back, every entry hashing to what it says and the chain verifying,
    if and only if its time zone is at UTC at every recorded instant. That it
    is needed takes that no entry read collides with the one written. -/
theorem readsBack_iff {s : State ι} (h : (machine ι).Reachable s)
    (hutc : ∀ e ∈ s.db.committed.auditLog, e.recordedAt.offset = some Offset.utc)
    (zone : Int → Offset) :
    (AtUtc zone s.db.committed → ReadsBack zone s.db.committed) ∧
      ((∀ row ∈ s.db.committed.auditLog, ∀ e, readEntry zone row = some e →
        Audit.digest e = Audit.digest row → Audit.canonical e = Audit.canonical row) →
          ReadsBack zone s.db.committed → AtUtc zone s.db.committed) := by
  have hlogged := (inv_of_reachable h).log.committed
  have hkept := kept_of_reachable h
  exact ⟨readsBack_of_atUtc hlogged hkept hutc, atUtc_of_readsBack hlogged hkept hutc⟩

/-- One transaction that appends one entry. -/
def oneAppend : List (Unit × Statement) :=
  [((), .connect), ((), .lockChain (Audit.tracedContent (text "a"))), ((), .readLast),
    ((), .insertEntry), ((), .commit)]

/-- A time zone two hours ahead of UTC. -/
def twoAhead : Offset where
  micros := 7200000000
  valid := by decide

set_option maxRecDepth 100000 in
/-- A reader at UTC reads that entry back. -/
theorem readsBack_iff_oneAppend :
    ∃ s : State Unit, s.db.committed.auditLog.length = 1 ∧
      ReadsBack (fun _ => Offset.utc) s.db.committed := by
  have hrun : ((machine Unit).run start oneAppend).map (fun s =>
      (s.db.committed.auditLog.length, s.db.committed.auditLog.all
        fun e => e.recordedAt.offset = some Offset.utc)) = some (1, true) := by decide +kernel
  rcases Option.map_eq_some_iff.mp hrun with ⟨s, hs, hfacts⟩
  rw [Prod.mk.injEq, List.all_eq_true] at hfacts
  have hreachable : (machine Unit).Reachable s := ⟨start, oneAppend, rfl, hs⟩
  exact ⟨s, hfacts.1, (readsBack_iff hreachable
    (fun e he => of_decide_eq_true (hfacts.2 e he)) fun _ => Offset.utc).1 fun _ _ _ _ => rfl⟩

set_option maxRecDepth 100000 in
/-- A reader two hours ahead does not. -/
theorem not_readsBack_twoAhead :
    ∃ s : State Unit, (machine Unit).Reachable s ∧
      (∀ e ∈ s.db.committed.auditLog, e.recordedAt.offset = some Offset.utc) ∧
      ¬ ReadsBack (fun _ => twoAhead) s.db.committed := by
  have hrun : ((machine Unit).run start oneAppend).map (fun s =>
      ((entries (fun _ => twoAhead) s.db.committed).map fun es => (Audit.verify es).ok,
        s.db.committed.auditLog.all fun e => e.recordedAt.offset = some Offset.utc)) =
      some (some false, true) := by decide +kernel
  rcases Option.map_eq_some_iff.mp hrun with ⟨s, hs, hfacts⟩
  rw [Prod.mk.injEq, List.all_eq_true] at hfacts
  refine ⟨s, ⟨start, oneAppend, rfl, hs⟩, fun e he => of_decide_eq_true (hfacts.2 e he), ?_⟩
  rintro ⟨es, hes, _, hok⟩
  rw [hes, Option.map_some, Option.some.injEq, hok] at hfacts
  cases hfacts.1

end TriageStore

end ClaimTriage
