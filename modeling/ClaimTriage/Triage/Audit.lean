import ClaimTriage.Guards.Verdict
import ClaimTriage.Theory.Chain
import ClaimTriage.Theory.Sha256

/-!
# The Audit Chain

One entry of the audit log, what it hashes to, and what tampering with the log
looks like.

Every entry carries the hash of the entry before it and a digest of everything
it holds. `verify` goes over entries in order and stops at the first that does
not stand where it was written or does not hash to what it says; `logged` is
the log an append after another leaves, and `verify_logged` that such a log is
in order.

What the digest is taken over is a text, so an entry is protected as far as
that text determines it. The text is sorted JSON in ASCII, with the characters
above the basic plane written as two surrogates each, and that is where it
falls short: a text that holds the two surrogates themselves is written
exactly as the one that holds the character. `canonical_inj` is that this is
the only case.

## Main definitions

* `AuditEntryContent`, `AuditEntry`: What is recorded, and the stored entry.
* `canonical`, `digest`: The text an entry is hashed over, and its hash.
* `append`, `continues`: The entry an append produces, and where it sits.
* `verify`: Whether a chain is intact.
* `logged`: The log that appends of some contents leave.

## Theorems

* `canonical_inj`: An entry's text determines it, its own hash apart.
* `intact_of_verify`: What `verify` accepts is a chain.
* `verify_logged`: What appends leave, `verify` accepts.
-/

namespace ClaimTriage

open Theory Text Calendar

namespace Audit

/-- What the first entry carries as the hash before it. -/
def genesis : Str :=
  List.replicate 64 (ofChar '0')

/-- Who caused the state change an entry records. -/
inductive Actor where
  | agent
  | system
  | human
  deriving DecidableEq

/-- The name an actor goes by. -/
def Actor.value : Actor → Str
  | agent => text "agent"
  | system => text "system"
  | human => text "human"

/-- An actor as its name. -/
def Actor.codec : Codec Actor Str :=
  Codec.named [agent, system, human] Actor.value (by intro a; cases a <;> decide)
    (by intro a b; cases a <;> cases b <;> decide)

/-- What the pipeline submits for the log to record: everything but the chain
    itself. -/
@[ext]
structure AuditEntryContent where
  claimId : Uuid
  runId : Uuid
  node : Str
  actor : Actor
  status : ClaimStatus
  guardVerdicts : List DocumentVerdicts
  experiment : Str
  variant : Str
  traceId : Str
  recordedAt : DateTime
  deriving DecidableEq

/-- One stored entry: what it records, where it sits in the chain, and what it
    hashes to. -/
@[ext]
structure AuditEntry extends AuditEntryContent where
  seq : Int
  prevHash : Str
  hash : Str
  deriving DecidableEq

/-- Everything an entry holds but its own hash, as the dump is given it. -/
def recorded (entry : AuditEntry) : Json :=
  .obj [
    (text "claim_id", .str entry.claimId.text),
    (text "run_id", .str entry.runId.text),
    (text "node", .str entry.node),
    (text "actor", .str entry.actor.value),
    (text "status", .str entry.status.value),
    (text "guard_verdicts", .arr (entry.guardVerdicts.map DocumentVerdicts.wire.encode)),
    (text "experiment", .str entry.experiment),
    (text "variant", .str entry.variant),
    (text "trace_id", .str entry.traceId),
    (text "recorded_at", .str entry.recordedAt.isoformat),
    (text "seq", .int entry.seq),
    (text "prev_hash", .str entry.prevHash)]

/-- Everything an entry holds, in one deterministic form. -/
def canonical (entry : AuditEntry) : Str :=
  (recorded entry).sortKeys.dumps false

/-- The hash one entry has: its position, its predecessor and everything it
    records. -/
def digest (entry : AuditEntry) : Str :=
  Sha256.hexdigest (encode (canonical entry))

/-- The entry an append produces: the content, where it sits, and the hash that
    links it on. -/
def append (prevHash : Str) (seq : Int) (content : AuditEntryContent) : AuditEntry :=
  let entry : AuditEntry := { content with seq := seq, prevHash := prevHash, hash := genesis }
  { entry with hash := digest entry }

/-- Where the next entry sits: one past the last one, linked onto its hash. -/
def continues : Option (Int × Str) → Int × Str
  | none => (1, genesis)
  | some (seq, previousHash) => (seq + 1, previousHash)

/-- What verifying a chain found: whether it is intact, and what broke if
    not. -/
structure ChainVerification where
  ok : Bool
  problem : Option Str
  deriving DecidableEq

/-- A chain broken at an entry. -/
def broken (seq : Int) (problem : Str) : ChainVerification where
  ok := false
  problem := some (text "the entry at seq " ++ Numeral.signed seq ++ text ": " ++ problem)

/-- What is wrong with an entry after the one before it, if anything. -/
def problemOf (previous : Option AuditEntry) (entry : AuditEntry) : Option Str :=
  let hashes := if digest entry ≠ entry.hash then
    some (text "it no longer hashes to what it says it holds") else none
  match previous with
  | none =>
    if entry.prevHash ≠ genesis then
      some (text "the chain starts at an entry whose predecessor is missing")
    else hashes
  | some previous =>
    if entry.seq ≤ previous.seq then
      some (text "it does not follow seq " ++ Numeral.signed previous.seq)
    else if entry.prevHash ≠ previous.hash then
      some (text "the entry after seq " ++ Numeral.signed previous.seq ++
        text " is missing, or this moved")
    else hashes

/-- Whether the rest of a chain is intact after an entry. -/
def verifyFrom : Option AuditEntry → List AuditEntry → ChainVerification
  | _, [] => ⟨true, none⟩
  | previous, entry :: rest =>
    match problemOf previous entry with
    | some problem => broken entry.seq problem
    | none => verifyFrom (some entry) rest

/-- Whether a chain is intact: every entry where it was written, and hashing to
    what it says. -/
def verify (entries : List AuditEntry) : ChainVerification :=
  verifyFrom none entries

/-! ### What an entry's text determines -/

/-- No text an entry was given holds a surrogate pair. -/
structure NoPairs (entry : AuditEntry) : Prop where
  node : NoPair entry.node
  guardVerdicts : ∀ d ∈ entry.guardVerdicts, ∀ t ∈ d.texts, NoPair t
  experiment : NoPair entry.experiment
  variant : NoPair entry.variant
  traceId : NoPair entry.traceId
  prevHash : NoPair entry.prevHash

/-- The fields an entry is hashed over, its time as the text it is hashed as. -/
abbrev Body : Type :=
  Uuid × Uuid × Str × Actor × ClaimStatus × List DocumentVerdicts × Str × Str × Str × Str × Int ×
    Str × Unit

/-- What an entry is hashed over. -/
def body (entry : AuditEntry) : Body :=
  (entry.claimId, entry.runId, entry.node, entry.actor, entry.status, entry.guardVerdicts,
    entry.experiment, entry.variant, entry.traceId, entry.recordedAt.isoformat, entry.seq,
    entry.prevHash, ())

/-- The names those fields go by. -/
def fields : List Str :=
  [text "claim_id", text "run_id", text "node", text "actor", text "status",
    text "guard_verdicts", text "experiment", text "variant", text "trace_id",
    text "recorded_at", text "seq", text "prev_hash"]

/-- What an entry is hashed over, as it is dumped. -/
def bodyCodec : Codec Body Json :=
  Codec.record fields
    (Uuid.codec.str.cons (Uuid.codec.str.cons (Codec.plain.str.cons (Actor.codec.str.cons
      (ClaimStatus.codec.str.cons (DocumentVerdicts.wire.array.cons (Codec.plain.str.cons
        (Codec.plain.str.cons (Codec.plain.str.cons (Codec.plain.str.cons (Codec.int.cons
          (Codec.plain.str.cons Codec.nil)))))))))))) (by decide) (fun _ => rfl)

theorem Actor.reads {F : Form} (a : Actor) : Reads F Actor.codec.str a a :=
  reads_of_printable _ (by cases a <;> decide)

/-- Sorting loses nothing of what an entry is hashed over. -/
theorem reads_body (b : Body) : Reads Form.sorted bodyCodec b b := by
  rcases b with ⟨claimId, runId, node, actor, status, documents, experiment, variant, traceId,
    recordedAt, seq, prevHash, ⟨⟩⟩
  have hdocuments : Reads Form.sorted DocumentVerdicts.wire.array documents
      (documents.map (DocumentVerdicts.mapText id)) := reads_documents fun _ _ _ _ => rfl
  -- What is written is read back as it stands: no text of it is put together anew.
  have hid : documents.map (DocumentVerdicts.mapText id) = documents := by
    have hverdict : Verdict.mapText id = id := rfl
    have hmap : DocumentVerdicts.mapText id = id := by
      funext d
      simp only [DocumentVerdicts.mapText, hverdict, List.map_id, id]
    rw [hmap, List.map_id]
  rw [hid] at hdocuments
  exact reads_record _ _ (by decide)
    (readsAll_cons claimId.reads (readsAll_cons runId.reads (readsAll_cons (reads_plain rfl)
      (readsAll_cons actor.reads (readsAll_cons status.reads (readsAll_cons hdocuments
        (readsAll_cons (reads_plain rfl) (readsAll_cons (reads_plain rfl)
          (readsAll_cons (reads_plain rfl) (readsAll_cons (reads_plain rfl)
            (readsAll_cons (reads_int seq) (readsAll_cons (reads_plain rfl)
              readsAll_nil))))))))))))

theorem noPair_body {entry : AuditEntry} (h : NoPairs entry) :
    (bodyCodec.encode (body entry)).NoPair := by
  have hid : ∀ id : Uuid, NoPair id.text := fun id => noPair_of_printable id.text_printable
  have hactor : NoPair entry.actor.value := by cases entry.actor <;> decide
  have hstatus : NoPair entry.status.value := by cases entry.status <;> decide
  have hdocuments : (DocumentVerdicts.wire.array.encode entry.guardVerdicts).NoPair :=
    Codec.noPair_array fun d hd => DocumentVerdicts.noPair_wire (h.guardVerdicts d hd)
  have htime := noPair_of_printable entry.recordedAt.isoformat_printable
  refine Codec.noPair_record (by decide) (fun _ => rfl) (by decide) ?_
  simp only [body, Codec.cons, Codec.nil, Codec.str, Codec.int, Codec.plain, Uuid.codec,
    Actor.codec, ClaimStatus.codec, Codec.named, id, List.forall_mem_cons, List.not_mem_nil,
    Json.NoPair]
  exact ⟨hid _, hid _, h.node, hactor, hstatus, hdocuments, h.experiment, h.variant, h.traceId,
    htime, trivial, h.prevHash, fun _ h => absurd h not_false⟩

/-- An entry's text determines it, its own hash apart, as long as no text it
    was given holds a surrogate pair. -/
theorem canonical_inj {e f : AuditEntry} (he : NoPairs e) (hf : NoPairs f)
    (h : canonical e = canonical f) :
    e.toAuditEntryContent = f.toAuditEntryContent ∧ e.seq = f.seq ∧ e.prevHash = f.prevHash := by
  have hbody : body e = body f :=
    Reads.dumps_inj (reads_body _) (reads_body _) (noPair_body he) (noPair_body hf) h
  simp only [body, Prod.mk.injEq] at hbody
  rcases hbody with ⟨hclaim, hrun, hnode, hactor, hstatus, hdocuments, hexperiment, hvariant,
    htrace, htime, hseq, hprev, _⟩
  exact ⟨AuditEntryContent.ext hclaim hrun hnode hactor hstatus hdocuments hexperiment hvariant
    htrace (DateTime.isoformat_inj htime), hseq, hprev⟩

/-! ### What the log is -/

/-- How entries link. -/
def scheme : Chain.Scheme AuditEntry Str where
  genesis := genesis
  link := AuditEntry.prevHash
  hash := AuditEntry.hash
  digest := digest

/-- The log with one more append on it. -/
def extend (log : List AuditEntry) (content : AuditEntryContent) : List AuditEntry :=
  let next := continues (log.getLast?.map fun last => (last.seq, last.hash))
  log ++ [append next.2 next.1 content]

/-- The log that appends of some contents leave. -/
def logged (contents : List AuditEntryContent) : List AuditEntry :=
  contents.foldl extend []

/-- The digest does not cover an entry's own hash, so setting it to the digest
    makes the two agree. -/
theorem digest_append (prevHash : Str) (seq : Int) (content : AuditEntryContent) :
    digest (append prevHash seq content) = (append prevHash seq content).hash := rfl

theorem logged_concat (contents : List AuditEntryContent) (content : AuditEntryContent) :
    logged (contents ++ [content]) = extend (logged contents) content := by
  rw [logged, List.foldl_append]
  rfl

/-- The hash the next entry links onto is the last one's, or the genesis. -/
theorem continues_snd (log : List AuditEntry) :
    (continues (log.getLast?.map fun last => (last.seq, last.hash))).2 =
      scheme.tip log.reverse := by
  rcases List.eq_nil_or_concat log with rfl | ⟨init, last, rfl⟩
  · rfl
  · rw [List.concat_eq_append, List.getLast?_append, List.reverse_append]
    rfl

/-- The number of the next entry is one past how many there are, if those are
    numbered from one. -/
theorem continues_fst {log : List AuditEntry}
    (h : log.map (·.seq) = (List.range log.length).map fun i : Nat => (i : Int) + 1) :
    (continues (log.getLast?.map fun last => (last.seq, last.hash))).1 = log.length + 1 := by
  -- The positions count up from one, so the last of them is how many there are.
  rcases List.eq_nil_or_concat log with rfl | ⟨init, last, rfl⟩
  · rfl
  · rw [List.concat_eq_append, List.map_append, List.length_append, List.length_singleton,
      List.range_succ, List.map_append] at h
    have hlast := (List.append_inj' h rfl).2
    simp only [List.map_cons, List.map_nil, List.cons.injEq, and_true] at hlast
    simp only [List.concat_eq_append, List.getLast?_append, List.getLast?_singleton,
      Option.some_or, Option.map_some, continues, hlast, List.length_append,
      List.length_singleton]
    omega

/-- The entries of a log are numbered from one. -/
theorem seq_logged (contents : List AuditEntryContent) :
    (logged contents).map (·.seq) =
      (List.range (logged contents).length).map fun i : Nat => (i : Int) + 1 := by
  induction contents using List.reverseRecOn with
  | nil => rfl
  | append_singleton contents content ih =>
      rw [logged_concat, extend, List.map_append, ih, List.length_append, List.length_singleton,
        List.range_succ, List.map_append]
      simp only [List.map_cons, List.map_nil, append, continues_fst ih]

/-- A log is a chain. -/
theorem intact_logged (contents : List AuditEntryContent) :
    scheme.Intact (logged contents).reverse := by
  induction contents using List.reverseRecOn with
  | nil => trivial
  | append_singleton contents content ih =>
      rw [logged_concat, extend, List.reverse_append]
      exact ⟨continues_snd (logged contents), rfl, ih⟩

/-- Every entry of a log hashes to what it says. -/
theorem digest_of_mem_logged {contents : List AuditEntryContent} {entry : AuditEntry}
    (h : entry ∈ logged contents) : digest entry = entry.hash := by
  induction contents using List.reverseRecOn with
  | nil => cases h
  | append_singleton contents content ih =>
      rw [logged_concat, extend, List.mem_append, List.mem_singleton] at h
      rcases h with h | rfl
      · exact ih h
      · exact digest_append _ _ _

/-! ### What verifying accepts -/

/-- A first check passes and the others find nothing. -/
theorem check_eq_none {p : Prop} [Decidable p] {problem : Str} {others : Option Str} :
    (if p then some problem else others) = none ↔ ¬ p ∧ others = none := by
  split <;> simp only [*, reduceCtorEq, not_true, not_false_eq_true, false_and, true_and]

/-- Verifying goes on past an entry exactly when it follows the one before it,
    links onto it and hashes to what it says. -/
theorem problemOf_eq_none {previous : Option AuditEntry} {entry : AuditEntry} :
    problemOf previous entry = none ↔ (∀ p ∈ previous, p.seq < entry.seq) ∧
      entry.prevHash = scheme.tip previous.toList ∧ digest entry = entry.hash := by
  cases previous with
  | none =>
      simp only [problemOf, check_eq_none, not_not, Option.not_mem_none, false_imp_iff,
        implies_true, true_and, and_true]
      rfl
  | some previous =>
      simp only [problemOf, check_eq_none, not_not, Int.not_le, Option.mem_some_iff,
        forall_eq', and_true]
      rfl

/-- What verifying accepts after some entries is a chain on top of them. -/
theorem intact_of_verifyFrom {past entries : List AuditEntry} (hpast : scheme.Intact past)
    (h : (verifyFrom past.head? entries).ok = true) : scheme.Intact (entries.reverse ++ past) := by
  induction entries generalizing past with
  | nil => exact hpast
  | cons entry rest ih =>
      rw [verifyFrom] at h
      split at h
      · cases h
      · rename_i hnone
        rcases problemOf_eq_none.mp hnone with ⟨_, hlink, hhash⟩
        -- An entry's predecessor is looked up at the head of what was verified before it.
        have htip : scheme.tip past.head?.toList = scheme.tip past := by cases past <;> rfl
        have hstep : scheme.Intact (entry :: past) := ⟨hlink.trans htip, hhash, hpast⟩
        have hrest := ih hstep h
        rw [List.reverse_cons, List.append_assoc]
        exact hrest

/-- What verifying accepts is a chain. -/
theorem intact_of_verify {entries : List AuditEntry} (h : (verify entries).ok = true) :
    scheme.Intact entries.reverse := by
  have hnil : scheme.Intact [] := trivial
  have hchain := intact_of_verifyFrom hnil h
  rwa [List.append_nil] at hchain

/-- A chain whose entries are numbered upwards is accepted, entry after entry. -/
theorem verifyFrom_append {previous : Option AuditEntry} {entries : List AuditEntry}
    {entry : AuditEntry} (h : (verifyFrom previous entries).ok = true)
    (hentry : problemOf (entries.getLast?.or previous) entry = none) :
    (verifyFrom previous (entries ++ [entry])).ok = true := by
  induction entries generalizing previous with
  | nil =>
      rw [List.nil_append, verifyFrom, show problemOf previous entry = none from hentry]
      rfl
  | cons e rest ih =>
      rw [verifyFrom] at h
      rw [List.cons_append, verifyFrom]
      -- A problem further up would have been reported instead of this entry.
      split at h
      · cases h
      · refine ih h ?_
        rw [List.getLast?_cons] at hentry
        rw [← hentry]
        cases rest.getLast? <;> rfl

/-- What appends leave, verifying accepts. -/
theorem verify_logged (contents : List AuditEntryContent) :
    (verify (logged contents)).ok = true := by
  induction contents using List.reverseRecOn with
  | nil => rfl
  | append_singleton contents content ih =>
      rw [logged_concat, extend]
      refine verifyFrom_append ih (problemOf_eq_none.mpr ⟨?_, ?_, rfl⟩)
      · intro p hp
        rw [Option.or_none] at hp
        have hp : (logged contents).getLast? = some p := hp
        simp only [append, hp, Option.map_some, continues]
        omega
      · rw [Option.or_none]
        cases hlast : (logged contents).getLast? with
        | none => rfl
        | some p => rfl

/-- Verifying looks at places, links, hashes and digests only. -/
theorem verify_map {f : AuditEntry → AuditEntry} (hseq : ∀ e, (f e).seq = e.seq)
    (hprev : ∀ e, (f e).prevHash = e.prevHash) (hhash : ∀ e, (f e).hash = e.hash)
    (hdigest : ∀ e, digest (f e) = digest e) (entries : List AuditEntry) :
    verify (entries.map f) = verify entries := by
  have hproblem : ∀ (previous : Option AuditEntry) entry,
      problemOf (previous.map f) (f entry) = problemOf previous entry := by
    intro previous entry
    cases previous with
    | none => simp only [problemOf, Option.map_none, hprev, hhash, hdigest]
    | some previous => simp only [problemOf, Option.map_some, hseq, hprev, hhash, hdigest]
  have hfrom : ∀ (previous : Option AuditEntry),
      verifyFrom (previous.map f) (entries.map f) = verifyFrom previous entries := by
    induction entries with
    | nil => exact fun _ => rfl
    | cons entry rest ih =>
        intro previous
        rw [List.map_cons, verifyFrom, verifyFrom, hproblem, hseq]
        cases problemOf previous entry with
        | none => exact ih (some entry)
        | some problem => rfl
  exact hfrom none

/-! ### Tampering -/

/-- Among entries without surrogate pairs whose texts do not collide, the
    digest and the hash they carry determine an entry. -/
theorem determined {entries : List AuditEntry} (hpairs : ∀ e ∈ entries, NoPairs e)
    (hcollision : ∀ e ∈ entries, ∀ f ∈ entries, digest e = digest f → canonical e = canonical f)
    (hgenesis : ∀ e ∈ entries, digest e ≠ genesis) : scheme.Determined entries := by
  refine ⟨fun e he f hf hhash hdigest => ?_, hgenesis⟩
  -- The digest is over all of an entry but itself, so equal digests leave the hash to compare, and
  -- that is given.
  rcases canonical_inj (hpairs e he) (hpairs f hf) (hcollision e he f hf hdigest) with
    ⟨hcontent, hseq, hprev⟩
  rcases e with ⟨content, seq, prevHash, hash⟩
  rcases f with ⟨content', seq', prevHash', hash'⟩
  cases hcontent
  cases hseq
  cases hprev
  cases hhash
  rfl

theorem tip_reverse {entries : List AuditEntry} (hne : entries ≠ []) :
    scheme.tip entries.reverse = (entries.getLast hne).hash := by
  rcases List.eq_nil_or_concat entries with rfl | ⟨init, last, rfl⟩
  · exact absurd rfl hne
  · simp only [List.concat_eq_append, List.reverse_append, List.getLast_append_singleton]
    rfl

/-- The hash of a chain's last entry commits to the whole chain. Two chains
    that verifying accepts and that end in one hash are one chain, so nothing
    done to a chain the log wrote that keeps its last hash and changes anything
    is accepted. The entries at hand are assumed to hold no surrogate pair, and
    their texts not to collide and not to hash to the genesis. -/
theorem eq_of_last_hash_eq {entries entries' : List AuditEntry} (hne : entries ≠ [])
    (hne' : entries' ≠ []) (hpairs : ∀ e ∈ entries ++ entries', NoPairs e)
    (hcollision : ∀ e ∈ entries ++ entries', ∀ f ∈ entries ++ entries',
      digest e = digest f → canonical e = canonical f)
    (hgenesis : ∀ e ∈ entries ++ entries', digest e ≠ genesis)
    (hlast : (entries.getLast hne).hash = (entries'.getLast hne').hash) :
    ((verify entries).ok = true → (verify entries').ok = true → entries = entries') ∧
      ∀ contents, entries = logged contents → entries' ≠ entries →
        (verify entries').ok = false := by
  have hcommits : (verify entries).ok = true → (verify entries').ok = true →
      entries = entries' := by
    intro hok hok'
    -- The chain is built from its newest entry backwards, so both logs are turned round.
    have hmem : ∀ e, e ∈ entries.reverse ++ entries'.reverse ↔ e ∈ entries ++ entries' := by
      intro e
      simp only [List.mem_append, List.mem_reverse]
    have hdetermined : scheme.Determined (entries.reverse ++ entries'.reverse) :=
      determined (fun e he => hpairs e ((hmem e).mp he))
        (fun e he f hf => hcollision e ((hmem e).mp he) f ((hmem f).mp hf))
        (fun e he => hgenesis e ((hmem e).mp he))
    -- Equal tips of two chains that are intact are tips of one chain.
    have hreverse := Chain.Scheme.eq_of_tip_eq (intact_of_verify hok) (intact_of_verify hok')
      hdetermined (by rw [tip_reverse hne, tip_reverse hne', hlast])
    exact List.reverse_injective hreverse
  refine ⟨hcommits, fun contents hlogged hchanged => ?_⟩
  by_contra hok
  have hwritten : (verify entries).ok = true := by
    rw [hlogged]
    exact verify_logged contents
  exact hchanged (hcommits hwritten (Bool.eq_true_of_not_eq_false hok)).symm

/-- An entry's content with a text of the caller's choice for its trace. -/
def tracedContent (traceId : Str) : AuditEntryContent where
  claimId := ⟨1, Uuid.one_valid⟩
  runId := ⟨2, Uuid.two_valid⟩
  node := text "triage"
  actor := .agent
  status := .triaged
  guardVerdicts := []
  experiment := text "baseline"
  variant := text "replay"
  traceId := traceId
  recordedAt := ⟨.newYear, .noon, some Offset.utc⟩

/-- One entry with a trace, changed without its hash being recomputed. -/
def retraced : AuditEntry :=
  { append genesis 1 (tracedContent (text "a")) with traceId := text "b" }

set_option maxRecDepth 100000 in
/-- An edit that leaves the hash as it was is found. -/
theorem eq_of_last_hash_eq_retraced : (verify [retraced]).ok = false := by
  have hpairs : ∀ e ∈ [append genesis 1 (tracedContent (text "a")), retraced], NoPairs e := by
    have hnode : NoPair (text "triage") ∧ NoPair (text "baseline") ∧ NoPair (text "replay") ∧
        NoPair genesis ∧ NoPair (text "a") ∧ NoPair (text "b") := by decide +kernel
    rcases hnode with ⟨hnode, hexperiment, hvariant, hgenesis, ha, hb⟩
    intro e he
    rcases List.mem_cons.mp he with rfl | he
    · exact ⟨hnode, fun d hd => absurd hd List.not_mem_nil, hexperiment, hvariant, ha, hgenesis⟩
    · rw [List.mem_singleton.mp he]
      exact ⟨hnode, fun d hd => absurd hd List.not_mem_nil, hexperiment, hvariant, hb, hgenesis⟩
  have hapart : digest (append genesis 1 (tracedContent (text "a"))) ≠ digest retraced ∧
      digest (append genesis 1 (tracedContent (text "a"))) ≠ genesis ∧
      digest retraced ≠ genesis := by decide +kernel
  have hne : [append genesis 1 (tracedContent (text "a"))] ≠ [] := List.cons_ne_nil _ _
  have hne' : [retraced] ≠ [] := List.cons_ne_nil _ _
  refine (eq_of_last_hash_eq hne hne' hpairs ?_ ?_ rfl).2 [tracedContent (text "a")] rfl
    (by decide +kernel)
  · intro e he f hf h
    -- Two of the entries are the same, or their digests are told apart above.
    rcases List.mem_cons.mp he with rfl | he <;> rcases List.mem_cons.mp hf with rfl | hf
    · rfl
    · rw [List.mem_singleton.mp hf] at h
      exact absurd h hapart.1
    · rw [List.mem_singleton.mp he] at h
      exact absurd h.symm hapart.1
    · rw [List.mem_singleton.mp he, List.mem_singleton.mp hf]
  · intro e he
    rcases List.mem_cons.mp he with rfl | he
    · exact hapart.2.1
    · rw [List.mem_singleton.mp he]
      exact hapart.2.2

/-- An entry whose trace is one character above the basic plane, and one whose
    trace is the two surrogates that character is written as. -/
def paired : AuditEntry × AuditEntry :=
  (append genesis 1 (tracedContent [0x1F600]), append genesis 1 (tracedContent [0xD83D, 0xDE00]))

set_option maxRecDepth 100000 in
/-- With surrogate pairs two entries can share their text, and then a chain of
    the one is accepted in place of a chain of the other. -/
theorem ne_of_last_hash_eq :
    ¬ ∀ (entries entries' : List AuditEntry) (hne : entries ≠ []) (hne' : entries' ≠ []),
      (∀ e ∈ entries ++ entries', ∀ f ∈ entries ++ entries',
        digest e = digest f → canonical e = canonical f) →
      (∀ e ∈ entries ++ entries', digest e ≠ genesis) →
      (entries.getLast hne).hash = (entries'.getLast hne').hash →
      (verify entries).ok = true → (verify entries').ok = true → entries = entries' := by
  intro hall
  -- A pair of surrogates is escaped as the character it stands for is.
  have hcanonical : canonical paired.1 = canonical paired.2 := by decide +kernel
  have hdigest : digest paired.1 = digest paired.2 := by rw [digest, digest, hcanonical]
  have hgenesis : digest paired.1 ≠ genesis := by decide +kernel
  have hne : [paired.1] ≠ [paired.2] := by decide +kernel
  have hlast : ([paired.1].getLast (List.cons_ne_nil _ _)).hash =
      ([paired.2].getLast (List.cons_ne_nil _ _)).hash := by
    rw [List.getLast_singleton, List.getLast_singleton]
    exact (digest_append _ _ _).symm.trans (hdigest.trans (digest_append _ _ _))
  have hok : ∀ content, (verify [append genesis 1 content]).ok = true :=
    fun content => verify_logged [content]
  refine hne (hall [paired.1] [paired.2] (List.cons_ne_nil _ _) (List.cons_ne_nil _ _) ?_ ?_
    hlast (hok _) (hok _))
  · intro e he f hf _
    have hone : ∀ e ∈ [paired.1, paired.2], canonical e = canonical paired.1 := by
      intro e he
      rcases List.mem_cons.mp he with rfl | he
      · rfl
      · rw [List.mem_singleton.mp he, hcanonical]
    rw [hone e he, hone f hf]
  · intro e he
    rcases List.mem_cons.mp he with rfl | he
    · exact hgenesis
    · rw [List.mem_singleton.mp he, ← hdigest]
      exact hgenesis

end Audit

end ClaimTriage
