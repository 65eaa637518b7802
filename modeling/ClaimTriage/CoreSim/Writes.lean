import ClaimTriage.CoreSim.Store
import ClaimTriage.Theory.Isolation
import ClaimTriage.Theory.Machine

/-!
# Concurrent Writes

Any number of writes to the surrounding systems' store at once, statement by
statement.

Every call is one connection and one transaction, or two where it undoes what it
wrote: it reads its key, looks up what it is about, writes, records its key, and
commits. Between any two statements the others do theirs. The look-up of a
status report locks the claim's row, and every insert holds its entry of a
unique index, so a second insert of one key waits until the first one's
transaction is over; what it finds then decides whether it is the write that
counts or one that undoes itself and answers with the other's.

A document and a party refer to their claim, and the insert that adds one ends
with the check of that reference: it shares the claim's row, waiting for a
report that has it locked, and a report waits for all that share it. The insert
has its index entry by then, so it is two steps here.

What is proved of a call that has not ended is that it could still be alone:
what it looked up is still so, and nothing there is has the primary keys it
inserted. Another call's commit cannot change that, because whatever it would
have to touch is held. A commit is therefore the write performed at once on the
tables as they stand, and a key has one row, which is its committed call's.

## Main definitions

* `Stage`: How far a call has got.
* `Stage.wrote`: Where a write leaves it, its reference to be checked or not.
* `Statement`, `step`: What a call does next, and what comes of it.
* `machine`: The store under an arbitrary family of calls.
* `Effect`: What a step can do, case by case.
* `Ready`: A pending write is the one the call would do alone.
* `Inv`: The invariant of the store.

## Theorems

* `effect_of_step`: Every step is one of the cases.
* `isSome_claims_of_inserted`: A reference that is checked is to a claim that is
  there.
* `inv_of_reachable`: The invariant holds wherever the store gets to.
* `idempotent_of_keyed`: A commit leaves what the call alone would have left.
* `reachable_atOnce`: What calls leave, calls one after another could have left.
* `answers_of_run`: A key has one effect and one answer.
-/

namespace ClaimTriage

open Theory Text Calendar

namespace CoreSim

/-! ### Calls under way -/

/-- The row a call locks when it looks it up. -/
def Call.lock : Call → Option Resource
  | recordStatus claimId _ => some (.claimRow claimId)
  | _ => none

/-- How far a call has got. The first ones are under way; `inserted` has its row
    in and has yet to check what the row refers to; `collided` found its key
    taken and has yet to undo what it wrote, `undone` has. A call that is over
    answered with what its key had recorded, or with what it wrote and committed,
    or raised; `unanswered` raised although its commit took. -/
inductive Stage where
  | waiting
  | connected
  | absent
  | found (draft : Draft)
  | inserted (claimId : Uuid) (answer : Answer)
  | written (answer : Answer)
  | keyed (answer : Answer)
  | collided
  | undone
  | replaying (answer : Answer)
  | returned (answer : Answer)
  | committed (answer : Answer)
  | unanswered (answer : Answer)
  | raised (error : Raised)

namespace Stage

/-- The call is under way. -/
def Open : Stage → Prop
  | returned _ | committed _ | unanswered _ | raised _ => False
  | _ => True

instance (stage : Stage) : Decidable stage.Open := by
  cases stage <;> simp only [Open] <;> infer_instance

/-- What the call returned, if it did. -/
def value : Stage → Option Answer
  | returned answer | committed answer => some answer
  | _ => none

/-- What the call answers, or would have, if its effect is committed. -/
def outcome : Stage → Option Answer
  | committed answer | unanswered answer => some answer
  | _ => none

theorem outcome_eq_none {stage : Stage} (h : stage.Open) : stage.outcome = none := by
  cases stage with
  | returned | committed | unanswered | raised => exact h.elim
  | _ => rfl

/-- Where a call is once its row is in: the insert is over, unless the row refers
    to a claim. -/
def wrote (w : Write) (answer : Answer) : Stage :=
  match w.references with
  | some claimId => .inserted claimId answer
  | none => .written answer

theorem wrote_cases (w : Write) (answer : Answer) :
    (∃ claimId, w.references = some claimId ∧ wrote w answer = .inserted claimId answer) ∨
      w.references = none ∧ wrote w answer = .written answer := by
  cases href : w.references with
  | some claimId => exact Or.inl ⟨claimId, rfl, by simp only [wrote, href]⟩
  | none => exact Or.inr ⟨rfl, by simp only [wrote, href]⟩

theorem open_wrote (w : Write) (answer : Answer) : (wrote w answer).Open := by
  rcases wrote_cases w answer with ⟨_, _, hwrote⟩ | ⟨_, hwrote⟩ <;>
    · rw [hwrote]
      trivial

@[simp]
theorem outcome_wrote (w : Write) (answer : Answer) : (wrote w answer).outcome = none :=
  outcome_eq_none (open_wrote w answer)

end Stage

/-- What a call does next. -/
inductive Statement where
  | connect
  | remember
  | check
  | write (id : Uuid) (now : Moment)
  | references
  | insertKey (now : Moment)
  | undo
  | rememberAgain
  | commit
  | commitLost
  | fail

/-- The database, every call's stage with it, and the calls whose effect was
    committed, in order. -/
structure State (ι : Type) where
  db : Database Tables Write Resource ι
  stage : ι → Stage
  commits : List ι

namespace State

variable {ι : Type} [DecidableEq ι]

/-- The tables as a call sees them. -/
def view (s : State ι) (i : ι) : Tables :=
  s.db.view Tables.apply i

/-- Another stage for one call. -/
def goto (s : State ι) (i : ι) (stage : Stage) : State ι :=
  { s with stage := Function.update s.stage i stage }

/-- What a call looked up, under the lock it took for it. -/
def locate (s : State ι) (i : ι) (lock : Option Resource) (draft : Draft) : State ι :=
  { s with db := lock.elim s.db fun r => s.db.acquire r i,
           stage := Function.update s.stage i (.found draft) }

@[simp]
theorem committed_locate (s : State ι) (i : ι) (lock : Option Resource) (draft : Draft) :
    (s.locate i lock draft).db.committed = s.db.committed := by
  cases lock <;> rfl

/-- A write, and what it takes. -/
def insert (s : State ι) (i : ι) (w : Write) (stage : Stage) : State ι :=
  { s with db := (s.db.acquire w.resource i).write i w,
           stage := Function.update s.stage i stage }

/-- Something shared, for what refers to it. -/
def share (s : State ι) (i : ι) (r : Resource) (stage : Stage) : State ι :=
  { s with db := s.db.share r i, stage := Function.update s.stage i stage }

/-- The transaction ended with nothing it wrote. -/
def close (s : State ι) (i : ι) (stage : Stage) : State ι :=
  { s with db := s.db.rollback i, stage := Function.update s.stage i stage }

/-- The transaction ended with what it wrote. -/
def commit (s : State ι) (i : ι) (stage : Stage) : State ι :=
  { db := s.db.commit Tables.apply i, stage := Function.update s.stage i stage,
    commits := s.commits ++ [i] }

/-- What a call does with what its key recorded: answer with it, or raise. -/
def settle (s : State ι) (i : ι) : Except Raised Answer → State ι
  | .ok answer => s.goto i (.replaying answer)
  | .error e => s.close i (.raised e)

/-- A statement that writes: it waits for whoever else holds what it takes, and
    is refused where its row is there already. -/
def send (s : State ι) (i : ι) (w : Write) (stage : Stage) (refused : State ι) :
    Option (State ι) :=
  if w.Storable then
    if s.db.Free w.resource i then
      if (s.view i).Accepts w then some (s.insert i w stage) else some refused
    else none
  else some (s.close i (.raised .dataError))

end State

section Machine

variable {ι : Type} [DecidableEq ι] (calls : ι → Request)

/-- What comes of a call's next statement; nothing while it waits, or where the
    call is not at a place to send it. -/
def step (s : State ι) (act : ι × Statement) : Option (State ι) :=
  let i := act.1
  let request := calls i
  match act.2, s.stage i with
  | .connect, .waiting => some (s.goto i .connected)
  | .remember, .connected =>
    if Theory.Storable request.key then
      match (s.view i).idempotencyKeys request.key with
      | some remembered => some (s.settle i (replayed remembered request))
      | none => some (s.goto i .absent)
    else some (s.close i (.raised .dataError))
  | .check, .absent =>
    -- A locking read waits for the row, and then reads what was committed last.
    if ∀ r ∈ request.call.lock, s.db.Free r i ∧ s.db.Unshared r i then
      match check (s.view i) request.call with
      | .ok draft => some (s.locate i request.call.lock draft)
      | .error e => some (s.close i (.raised e))
    else none
  | .write id now, .found draft =>
    s.send i (draft.write id now).1 (.wrote (draft.write id now).1 (draft.write id now).2)
      (s.close i (.raised .uniqueViolation))
  | .references, .inserted claimId answer =>
    -- The claim was looked up, and none is ever deleted: only a lock can be in the way.
    if s.db.Free (.claimRow claimId) i then some (s.share i (.claimRow claimId) (.written answer))
    else none
  | .insertKey now, .written answer =>
    -- Only here is a row that is there already caught.
    s.send i (.key request.key (keyRow request answer now)) (.keyed answer) (s.goto i .collided)
  | .undo, .collided => some (s.close i .undone)
  | .rememberAgain, .undone =>
    match (s.view i).idempotencyKeys request.key with
    | some remembered => some (s.settle i (replayed remembered request))
    | none => some (s.close i (.raised .uniqueViolation))
  | .commit, .keyed answer => some (s.commit i (.committed answer))
  | .commit, .replaying answer => some (s.close i (.returned answer))
  -- The commit takes, and the connection is lost before it says so.
  | .commitLost, .keyed answer => some (s.commit i (.unanswered answer))
  | .fail, stage => if stage.Open then some (s.close i (.raised .operationalError)) else none
  | _, _ => none

/-- The tables with the policies and nothing else. -/
def initial (policies : Str → Option Policy) : Tables :=
  ⟨policies, fun _ => none, [], [], fun _ => none⟩

/-- The initial tables, and no call begun. -/
def start (policies : Str → Option Policy) : State ι where
  db := Database.quiet (initial policies)
  stage _ := .waiting
  commits := []

/-- The store under a family of calls. -/
def machine (policies : Str → Option Policy) : Machine (State ι) (ι × Statement) where
  init s := s = start policies
  step := step calls

end Machine

section Invariant

variable {ι : Type} {calls : ι → Request}

/-! ### The invariant -/

/-- What a call found, it would find in what is committed, and it holds what it
    locked. -/
def Located (calls : ι → Request) (s : State ι) (i : ι) (draft : Draft) : Prop :=
  Finds s.db.committed (calls i).call draft ∧ ∀ r ∈ (calls i).call.lock, s.db.holder r = some i

/-- The write is the one the call would do on what is committed, with the answer
    it would give. -/
def Ready (calls : ι → Request) (s : State ι) (i : ι) (answer : Answer) (w : Write) : Prop :=
  ∃ draft id now, Located calls s i draft ∧ draft.write id now = (w, answer) ∧ w.Storable ∧
    s.db.committed.Accepts w

/-- The write that records a call's key. -/
def KeyWrite (calls : ι → Request) (s : State ι) (i : ι) (answer : Answer) (w : Write) : Prop :=
  ∃ now, w = .key (calls i).key (keyRow (calls i) answer now) ∧ w.Storable ∧
    s.db.committed.Accepts w

/-- Another call committed the answer, under the same key and for the same
    request. -/
def Answered (calls : ι → Request) (s : State ι) (i : ι) (answer : Answer) : Prop :=
  ∃ j ∈ s.commits, (calls j).key = (calls i).key ∧
    fingerprint (calls j).call = fingerprint (calls i).call ∧ (s.stage j).outcome = some answer

/-- What a call has pending, and what it rests on. -/
def StageInv (calls : ι → Request) (s : State ι) (i : ι) : Stage → Prop
  | .found draft => s.db.pending i = [] ∧ Located calls s i draft
  | .inserted claimId answer =>
    ∃ w, s.db.pending i = [w] ∧ Ready calls s i answer w ∧ w.references = some claimId
  | .written answer => ∃ w, s.db.pending i = [w] ∧ Ready calls s i answer w
  | .keyed answer =>
    ∃ w k, s.db.pending i = [w, k] ∧ Ready calls s i answer w ∧ KeyWrite calls s i answer k
  | .collided => True
  | .replaying answer | .returned answer => s.db.pending i = [] ∧ Answered calls s i answer
  | _ => s.db.pending i = []

/-- A key's row is its committed call's. -/
structure KeysInv (calls : ι → Request) (s : State ι) : Prop where
  recorded : ∀ key row, s.db.committed.idempotencyKeys key = some row →
    ∃ j ∈ s.commits, (calls j).key = key ∧ row.fingerprint = fingerprint (calls j).call ∧
      ∃ answer, (s.stage j).outcome = some answer ∧ row.response = answer.modelDump ∧
        answer.Storable ∧ (calls j).call.Answers answer
  present : ∀ j ∈ s.commits, (s.db.committed.idempotencyKeys (calls j).key).isSome
  nodup : (s.commits.map fun j => (calls j).key).Nodup

/-- The invariant of the store. -/
structure Inv (calls : ι → Request) (s : State ι) : Prop where
  held : s.db.Held Write.resource
  rows : RowsInv s.db.committed
  stage : ∀ i, StageInv calls s i (s.stage i)
  took : ∀ i, i ∈ s.commits ↔ (s.stage i).outcome.isSome
  keys : KeysInv calls s

/-- What another call's step leaves of what a call rests on. -/
structure Kept (calls : ι → Request) (s s' : State ι) (j : ι) : Prop where
  pending : s'.db.pending j = s.db.pending j
  located : ∀ draft, Located calls s j draft → Located calls s' j draft
  accepts : ∀ w ∈ s.db.pending j, s.db.committed.Accepts w → s'.db.committed.Accepts w
  answered : ∀ answer, Answered calls s j answer → Answered calls s' j answer

theorem StageInv.kept {s s' : State ι} {j : ι} {stage : Stage} (h : StageInv calls s j stage)
    (k : Kept calls s s' j) : StageInv calls s' j stage := by
  have hready : ∀ answer w, w ∈ s.db.pending j → Ready calls s j answer w →
      Ready calls s' j answer w := by
    rintro answer w hw ⟨draft, id, now, hlocated, hwrite, hstorable, haccepts⟩
    exact ⟨draft, id, now, k.located draft hlocated, hwrite, hstorable, k.accepts w hw haccepts⟩
  cases stage with
  | found draft => exact ⟨k.pending.trans h.1, k.located draft h.2⟩
  | inserted claimId answer =>
      rcases h with ⟨w, hpending, hr, href⟩
      exact ⟨w, k.pending.trans hpending,
        hready answer w (hpending ▸ List.mem_singleton_self w) hr, href⟩
  | written answer =>
      rcases h with ⟨w, hpending, hr⟩
      exact ⟨w, k.pending.trans hpending,
        hready answer w (hpending ▸ List.mem_singleton_self w) hr⟩
  | keyed answer =>
      rcases h with ⟨w, key, hpending, hr, now, hkey, hstorable, haccepts⟩
      have hw : w ∈ s.db.pending j := hpending ▸ List.mem_cons_self
      have hk : key ∈ s.db.pending j :=
        hpending ▸ List.mem_cons_of_mem _ (List.mem_singleton_self key)
      exact ⟨w, key, k.pending.trans hpending, hready answer w hw hr, now, hkey, hstorable,
        k.accepts key hk haccepts⟩
  | collided => trivial
  | replaying answer => exact ⟨k.pending.trans h.1, k.answered answer h.2⟩
  | returned answer => exact ⟨k.pending.trans h.1, k.answered answer h.2⟩
  | waiting | connected | absent | undone | committed | unanswered | raised =>
      exact k.pending.trans h

/-- A row that is in is ready, its reference to be checked or not. -/
theorem stageInv_wrote {s : State ι} {i : ι} {answer : Answer} {w : Write}
    (hpending : s.db.pending i = [w]) (hready : Ready calls s i answer w) :
    StageInv calls s i (.wrote w answer) := by
  rcases Stage.wrote_cases w answer with ⟨claimId, href, hwrote⟩ | ⟨_, hwrote⟩
  · rw [hwrote]
    exact ⟨w, hpending, hready, href⟩
  · rw [hwrote]
    exact ⟨w, hpending, hready⟩

/-- A reference that is checked is to a claim that is there. -/
theorem isSome_claims_of_inserted {s : State ι} (h : Inv calls s) {i : ι} {claimId : Uuid}
    {answer : Answer} (hs : s.stage i = .inserted claimId answer) :
    (s.db.committed.claims claimId).isSome := by
  have hstage := h.stage i
  rw [hs] at hstage
  rcases hstage with ⟨w, _, ⟨draft, id, now, ⟨hfinds, _⟩, hwrite, _⟩, href⟩
  have hw : w = (draft.write id now).1 := by rw [hwrite]
  rw [hw] at href
  generalize (calls i).call = call at hfinds
  -- Only a document and a party refer to a claim, and it was looked up.
  cases hfinds with
  | create | recordStatus => cases href
  | attachDocument hsome | recordParty hsome =>
      cases href
      exact hsome

/-- What a key recorded for a call's request is what another call committed. -/
theorem Inv.answered {s : State ι} (h : Inv calls s) {i : ι} {remembered : KeyRow} {answer : Answer}
    (hrow : s.db.committed.idempotencyKeys (calls i).key = some remembered)
    (hr : replayed remembered (calls i) = .ok answer) : Answered calls s i answer := by
  rcases h.keys.recorded _ remembered hrow with
    ⟨j, hj, hkey, hprint, recorded, hrecorded, hresponse, hstorable, _⟩
  rcases replayed_eq_ok.mp hr with ⟨hsame, hread⟩
  rw [hresponse] at hread
  rw [eq_of_validate hstorable hread]
  exact ⟨j, hj, hkey, hprint.symm.trans hsame, hrecorded⟩

/-- A call that has nothing pending sees what is committed. -/
theorem view_eq {s : State ι} {i : ι} (h : s.db.pending i = []) : s.view i = s.db.committed :=
  Database.view_of_pending_nil h

/-- A write that is ready is no key. -/
theorem Ready.accepts_key {s : State ι} {i : ι} {answer : Answer} {w : Write}
    (h : Ready calls s i answer w) {name : Str} {row : KeyRow} :
    (s.db.committed.apply w).Accepts (.key name row) ↔ s.db.committed.Accepts (.key name row) := by
  rcases h with ⟨draft, id, now, _, hwrite, _⟩
  have hw : w = (draft.write id now).1 := by rw [hwrite]
  rw [hw]
  exact accepts_key_iff

/-- What a call commits: its write and its key's row. -/
theorem view_keyed {s : State ι} {i : ι} {w k : Write} (h : s.db.pending i = [w, k]) :
    s.view i = (s.db.committed.apply w).apply k := by
  rw [State.view, Database.view, h]
  rfl

/-- The call under whose key a write is recorded could have done it at once: a
    commit leaves what the call alone would have left, and answers so. -/
theorem idempotent_of_keyed {s : State ι} (h : Inv calls s) {i : ι} {answer : Answer}
    (hs : s.stage i = .keyed answer) :
    ∃ id now keyedAt,
      idempotent s.db.committed (calls i) id now keyedAt = .ok (answer, s.view i) := by
  have hkeyed := h.stage i
  rw [hs] at hkeyed
  rcases hkeyed with ⟨w, k, hpending, hready, keyedAt, rfl, hk, hfresh⟩
  rcases hready with ⟨draft, id, now, ⟨hfinds, _⟩, hwrite, hw, hwa⟩
  have hw' : w = (draft.write id now).1 := by rw [hwrite]
  have ha : answer = (draft.write id now).2 := by rw [hwrite]
  refine ⟨id, now, keyedAt, idempotent_eq_ok.mpr ⟨hk.1, ?_⟩⟩
  rw [view_keyed hpending]
  rw [ha] at hk ⊢
  rw [hw'] at hw hwa ⊢
  exact .performed hfresh hfinds hw hwa hk

end Invariant

section Runs

variable {ι : Type} [DecidableEq ι] {calls : ι → Request}

/-! ### What a step can do -/

/-- Everything a step of call `i` can do, with what had to hold for it. -/
inductive Effect (calls : ι → Request) (s : State ι) (i : ι) : State ι → Prop
  | connect : s.stage i = .waiting → Effect calls s i (s.goto i .connected)
  | absent : s.stage i = .connected → (s.view i).idempotencyKeys (calls i).key = none →
      Effect calls s i (s.goto i .absent)
  | replay {remembered : KeyRow} {answer : Answer} : s.stage i = .connected ∨ s.stage i = .undone →
      (s.view i).idempotencyKeys (calls i).key = some remembered →
      replayed remembered (calls i) = .ok answer →
      Effect calls s i (s.goto i (.replaying answer))
  | locate {draft : Draft} : s.stage i = .absent →
      (∀ r ∈ (calls i).call.lock, s.db.Free r i ∧ s.db.Unshared r i) →
      check (s.view i) (calls i).call = .ok draft →
      Effect calls s i (s.locate i (calls i).call.lock draft)
  | write {draft : Draft} {id : Uuid} {now : Moment} : s.stage i = .found draft →
      (draft.write id now).1.Storable → s.db.Free (draft.write id now).1.resource i →
      (s.view i).Accepts (draft.write id now).1 →
      Effect calls s i (s.insert i (draft.write id now).1
        (.wrote (draft.write id now).1 (draft.write id now).2))
  | references {claimId : Uuid} {answer : Answer} : s.stage i = .inserted claimId answer →
      s.db.Free (.claimRow claimId) i →
      Effect calls s i (s.share i (.claimRow claimId) (.written answer))
  | insertKey {answer : Answer} {now : Moment} : s.stage i = .written answer →
      (Write.key (calls i).key (keyRow (calls i) answer now)).Storable →
      s.db.Free (.idempotencyKey (calls i).key) i →
      (s.view i).idempotencyKeys (calls i).key = none →
      Effect calls s i
        (s.insert i (.key (calls i).key (keyRow (calls i) answer now)) (.keyed answer))
  | collide {answer : Answer} : s.stage i = .written answer → Effect calls s i (s.goto i .collided)
  | undo : s.stage i = .collided → Effect calls s i (s.close i .undone)
  | commit {answer : Answer} {stage : Stage} : s.stage i = .keyed answer →
      stage.outcome = some answer → Effect calls s i (s.commit i stage)
  | answer {answer : Answer} : s.stage i = .replaying answer →
      Effect calls s i (s.close i (.returned answer))
  | raise {error : Raised} : (s.stage i).Open → Effect calls s i (s.close i (.raised error))

/-- What a statement that writes can do. -/
theorem send_cases {s s' refused : State ι} {i : ι} {w : Write} {stage : Stage}
    (h : s.send i w stage refused = some s') :
    (w.Storable ∧ s.db.Free w.resource i ∧ (s.view i).Accepts w ∧ s' = s.insert i w stage) ∨
      s' = refused ∨ s' = s.close i (.raised .dataError) := by
  unfold State.send at h
  by_cases hstorable : w.Storable
  · rw [if_pos hstorable] at h
    by_cases hfree : s.db.Free w.resource i
    · rw [if_pos hfree] at h
      by_cases haccepts : (s.view i).Accepts w
      · rw [if_pos haccepts, Option.some.injEq] at h
        exact Or.inl ⟨hstorable, hfree, haccepts, h.symm⟩
      · rw [if_neg haccepts, Option.some.injEq] at h
        exact Or.inr (Or.inl h.symm)
    · rw [if_neg hfree] at h
      cases h
  · rw [if_neg hstorable, Option.some.injEq] at h
    exact Or.inr (Or.inr h.symm)

/-- What a call can do once it has read its key's row. -/
theorem effect_of_settle {s s' : State ι} {i : ι} {remembered : KeyRow}
    (hstage : s.stage i = .connected ∨ s.stage i = .undone) (hopen : (s.stage i).Open)
    (hrow : (s.view i).idempotencyKeys (calls i).key = some remembered)
    (h : s.settle i (replayed remembered (calls i)) = s') : Effect calls s i s' := by
  cases hr : replayed remembered (calls i) with
  | ok answer =>
      rw [hr] at h
      exact h ▸ .replay hstage hrow hr
  | error e =>
      rw [hr] at h
      exact h ▸ .raise hopen

/-- Every step is one of the cases. -/
theorem effect_of_step {s s' : State ι} {i : ι} {a : Statement}
    (h : step calls s (i, a) = some s') : Effect calls s i s' := by
  have hopen : ∀ stage, s.stage i = stage → stage.Open → (s.stage i).Open := by
    intro stage hs ho
    rwa [hs]
  simp only [step] at h
  split at h
  · rename_i hs
    cases h
    exact .connect hs
  · rename_i hs
    split at h
    · split at h
      · rename_i remembered hrow
        rw [Option.some.injEq] at h
        exact effect_of_settle (Or.inl hs) (hopen _ hs trivial) hrow h
      · rename_i hrow
        cases h
        exact .absent hs hrow
    · cases h
      exact .raise (hopen _ hs trivial)
  · rename_i hs
    split at h
    · rename_i hfree
      split at h
      · rename_i draft hcheck
        cases h
        exact .locate hs hfree hcheck
      · cases h
        exact .raise (hopen _ hs trivial)
    · cases h
  · rename_i id now draft hs
    rcases send_cases h with ⟨hstorable, hfree, haccepts, rfl⟩ | rfl | rfl
    · exact .write hs hstorable hfree haccepts
    · exact .raise (hopen _ hs trivial)
    · exact .raise (hopen _ hs trivial)
  · rename_i claimId answer hs
    split at h
    · rename_i hfree
      cases h
      exact .references hs hfree
    · cases h
  · rename_i now answer hs
    rcases send_cases h with ⟨hstorable, hfree, haccepts, rfl⟩ | rfl | rfl
    · exact .insertKey hs hstorable hfree haccepts
    · exact .collide hs
    · exact .raise (hopen _ hs trivial)
  · rename_i hs
    cases h
    exact .undo hs
  · rename_i hs
    split at h
    · rename_i remembered hrow
      rw [Option.some.injEq] at h
      exact effect_of_settle (Or.inr hs) (hopen _ hs trivial) hrow h
    · cases h
      exact .raise (hopen _ hs trivial)
  · rename_i hs
    cases h
    exact .commit hs rfl
  · rename_i hs
    cases h
    exact .answer hs
  · rename_i hs
    cases h
    exact .commit hs rfl
  · split at h
    · rename_i ho
      cases h
      exact .raise ho
    · cases h
  · cases h

/-! ### What a step keeps -/

/-- An answer that was committed stays so when another call moves. -/
theorem Answered.move {s : State ι} {i j : ι} {answer : Answer} (h : Answered calls s j answer)
    {stage : Stage} {d : Database Tables Write Resource ι} (hopen : (s.stage i).outcome = none) :
    Answered calls { s with db := d, stage := Function.update s.stage i stage } j answer := by
  rcases h with ⟨k, hk, hkey, hprint, hanswer⟩
  refine ⟨k, hk, hkey, hprint, ?_⟩
  have hki : k ≠ i := by
    rintro rfl
    rw [hopen] at hanswer
    cases hanswer
  simp only [Function.update_of_ne hki]
  exact hanswer

/-- A step that commits nothing: one call moves, and the others keep what they
    rest on. -/
theorem Inv.move {s : State ι} (h : Inv calls s) {i : ι} {stage : Stage}
    {d : Database Tables Write Resource ι} (hopen : (s.stage i).Open)
    (hstage : stage.outcome = none) (hcommitted : d.committed = s.db.committed)
    (hheld : d.Held Write.resource)
    (hpending : ∀ j, j ≠ i → d.pending j = s.db.pending j)
    (hholder : ∀ j, j ≠ i → ∀ r, s.db.holder r = some j → d.holder r = some j)
    (hmoved : StageInv calls
      { s with db := d, stage := Function.update s.stage i stage } i stage) :
    Inv calls { s with db := d, stage := Function.update s.stage i stage } := by
  -- A call whose effect is committed is not the one that moves.
  have hnone := Stage.outcome_eq_none hopen
  refine ⟨hheld, hcommitted ▸ h.rows, fun j => ?_, fun j => ?_, ?_⟩
  · by_cases hji : j = i
    · subst hji
      simp only [Function.update_self]
      exact hmoved
    · simp only [Function.update_of_ne hji]
      refine (h.stage j).kept ⟨hpending j hji, ?_, ?_, fun _ ha => ha.move hnone⟩
      · rintro draft ⟨hfinds, hlock⟩
        exact ⟨hcommitted ▸ hfinds, fun r hr => hholder j hji r (hlock r hr)⟩
      · exact fun w _ haccepts => hcommitted ▸ haccepts
  · by_cases hji : j = i
    · subst hji
      simp only [Function.update_self, hstage, h.took j, hnone]
    · simp only [Function.update_of_ne hji]
      exact h.took j
  · refine ⟨fun key row hrow => ?_, fun j hj => ?_, h.keys.nodup⟩
    · simp only [hcommitted] at hrow
      rcases h.keys.recorded key row hrow with ⟨j, hj, hkey, hprint, answer, hanswer, hrest⟩
      have hji : j ≠ i := by
        rintro rfl
        rw [hnone] at hanswer
        cases hanswer
      refine ⟨j, hj, hkey, hprint, answer, ?_, hrest⟩
      simp only [Function.update_of_ne hji]
      exact hanswer
    · simp only [hcommitted]
      exact h.keys.present j hj

/-- One call at another stage, the database as it was. -/
theorem Inv.goto {s : State ι} (h : Inv calls s) {i : ι} {stage : Stage} (hopen : (s.stage i).Open)
    (hstage : stage.outcome = none) (hmoved : StageInv calls (s.goto i stage) i stage) :
    Inv calls (s.goto i stage) :=
  h.move (d := s.db) hopen hstage rfl h.held (fun _ _ => rfl) (fun _ _ _ hr => hr) hmoved

/-- One call that undoes what it wrote. -/
theorem Inv.close {s : State ι} (h : Inv calls s) {i : ι} {stage : Stage} (hopen : (s.stage i).Open)
    (hstage : stage.outcome = none) (hmoved : StageInv calls (s.close i stage) i stage) :
    Inv calls (s.close i stage) :=
  h.move hopen hstage (Database.committed_rollback _ _) (h.held.rollback i)
    (fun _ hji => Database.pending_rollback_other _ hji)
    (fun _ hji _ hr => Database.holder_rollback.mpr ⟨hr, hji⟩) hmoved

/-- One call that writes, holding what it takes. -/
theorem Inv.insert {s : State ι} (h : Inv calls s) {i : ι} {w : Write} {stage : Stage}
    (hopen : (s.stage i).Open) (hstage : stage.outcome = none) (hfree : s.db.Free w.resource i)
    (hmoved : StageInv calls (s.insert i w stage) i stage) : Inv calls (s.insert i w stage) := by
  refine h.move hopen hstage rfl ?_ ?_ ?_ hmoved
  · exact (h.held.acquire hfree).write (Database.holder_acquire_self _ _ _)
  · exact fun j hji => Database.pending_write_other _ w hji
  · exact fun j _ r hr => Database.holder_acquire_of_holder hfree hr

/-- What a call looked up, under the lock it took for it. -/
theorem Inv.locate {s : State ι} (h : Inv calls s) {i : ι} {draft : Draft}
    (hs : s.stage i = .absent)
    (hfree : ∀ r ∈ (calls i).call.lock, s.db.Free r i ∧ s.db.Unshared r i)
    (hfinds : Finds s.db.committed (calls i).call draft) :
    Inv calls (s.locate i (calls i).call.lock draft) := by
  have hpending : s.db.pending i = [] := by
    have hstage := h.stage i
    rwa [hs] at hstage
  have hopen : (s.stage i).Open := by
    rw [hs]
    trivial
  unfold State.locate
  cases hlock : (calls i).call.lock with
  | none =>
      refine h.move (d := s.db) hopen rfl rfl h.held (fun _ _ => rfl) (fun _ _ _ hr => hr) ?_
      refine ⟨hpending, hfinds, fun r hr => ?_⟩
      rw [hlock] at hr
      cases hr
  | some r =>
      rw [hlock] at hfree
      have hfree := (hfree r rfl).1
      refine h.move (d := s.db.acquire r i) hopen rfl rfl (h.held.acquire hfree) (fun _ _ => rfl)
        (fun _ _ _ hr => Database.holder_acquire_of_holder hfree hr) ?_
      refine ⟨hpending, hfinds, fun q hq => ?_⟩
      rw [hlock] at hq
      cases hq
      exact Database.holder_acquire_self _ _ _

/-- What a call's row refers to, shared: nobody else's standing changes. -/
theorem Inv.share {s : State ι} (h : Inv calls s) {i : ι} {r : Resource} {stage : Stage}
    (hopen : (s.stage i).Open) (hstage : stage.outcome = none)
    (hmoved : StageInv calls (s.share i r stage) i stage) : Inv calls (s.share i r stage) :=
  h.move (d := s.db.share r i) hopen hstage rfl h.held (fun _ _ => rfl) (fun _ _ _ hr => hr) hmoved

@[simp]
theorem pending_insert (s : State ι) (i : ι) (w : Write) (stage : Stage) :
    (s.insert i w stage).db.pending i = s.db.pending i ++ [w] :=
  Database.pending_write_self _ _ _

/-- Another call's commit leaves what a call rests on: whatever it touches it
    holds. -/
theorem Kept.commit {s : State ι} (h : Inv calls s) {i j : ι} (hji : j ≠ i) {stage : Stage}
    (hnone : (s.stage i).outcome = none) {answer : Answer} {w k : Write}
    (hpending : s.db.pending i = [w, k]) (hready : Ready calls s i answer w)
    (hkey : KeyWrite calls s i answer k) : Kept calls s (s.commit i stage) j := by
  rcases hkey with ⟨now, rfl, _, hk⟩
  have hkw := hready.accepts_key.mpr hk
  rcases hready with ⟨_, _, _, _, _, _, hw⟩
  have hcommitted : (s.commit i stage).db.committed =
      (s.db.committed.apply w).apply (.key (calls i).key (keyRow (calls i) answer now)) :=
    view_keyed hpending
  have hwmem : w ∈ s.db.pending i := hpending ▸ List.mem_cons_self
  have hkmem : .key (calls i).key (keyRow (calls i) answer now) ∈ s.db.pending i :=
    hpending ▸ List.mem_cons_of_mem _ (List.mem_singleton_self _)
  refine ⟨Database.pending_commit_other _ hji, ?_, ?_, ?_⟩
  · rintro draft ⟨hfinds, hlock⟩
    refine ⟨?_, fun r hr => Database.holder_commit.mpr ⟨hlock r hr, hji⟩⟩
    rw [hcommitted]
    refine (hfinds.apply hw ?_).apply hkw fun _ _ _ _ => nofun
    -- The claim's row is locked by one of the two calls, not by both.
    rintro id status updated hcall rfl
    have hi := h.held i _ hwmem
    have hj := hlock (.claimRow id) (by rw [hcall]; rfl)
    rw [Write.resource, hj, Option.some.injEq] at hi
    exact hji hi
  · intro v hv haccepts
    rw [hcommitted]
    exact (haccepts.apply (h.held.need_ne hji hv hwmem)).apply (h.held.need_ne hji hv hkmem)
  · rintro answer' ⟨l, hl, hsame, hprint, houtcome⟩
    have hli : l ≠ i := by
      rintro rfl
      rw [hnone] at houtcome
      cases houtcome
    refine ⟨l, List.mem_append_left _ hl, hsame, hprint, ?_⟩
    simp only [State.commit, Function.update_of_ne hli]
    exact houtcome

/-- A key's rows after the commit that records one more. -/
theorem KeysInv.commit {s : State ι} (h : Inv calls s) {i : ι} {stage : Stage} {answer : Answer}
    (hnone : (s.stage i).outcome = none) (hstage : stage.outcome = some answer) {w k : Write}
    (hpending : s.db.pending i = [w, k]) (hready : Ready calls s i answer w)
    (hkey : KeyWrite calls s i answer k) : KeysInv calls (s.commit i stage) := by
  rcases hkey with ⟨now, rfl, _, hk⟩
  rcases hready with ⟨draft, id, now', ⟨hfinds, _⟩, hwrite, hstorable, _⟩
  have hw : w = (draft.write id now').1 := by rw [hwrite]
  have ha : answer = (draft.write id now').2 := by rw [hwrite]
  have hkeys : (s.commit i stage).db.committed.idempotencyKeys =
      Function.update s.db.committed.idempotencyKeys (calls i).key
        (some (keyRow (calls i) answer now)) := by
    have hview := view_keyed hpending
    simp only [State.commit, Database.committed_commit]
    change (s.view i).idempotencyKeys = _
    rw [hview, hw, idempotencyKeys_apply_key, idempotencyKeys_write]
  have hfresh : ∀ j ∈ s.commits, (calls j).key ≠ (calls i).key := by
    intro j hj heq
    have hsome := h.keys.present j hj
    rw [heq, hk] at hsome
    cases hsome
  refine ⟨fun key row hrow => ?_, fun j hj => ?_, ?_⟩
  · rw [hkeys] at hrow
    by_cases hkey : key = (calls i).key
    · subst hkey
      rw [Function.update_self, Option.some.injEq] at hrow
      subst hrow
      refine ⟨i, List.mem_append_right _ (List.mem_singleton_self i), rfl, rfl, answer, ?_, rfl,
        ?_, ?_⟩
      · simp only [State.commit, Function.update_self]
        exact hstage
      · rw [ha]
        exact hfinds.storable_answer h.rows (hw ▸ hstorable)
      · rw [ha]
        exact hfinds.answers id now'
    · rw [Function.update_of_ne hkey] at hrow
      rcases h.keys.recorded key row hrow with ⟨j, hj, hkeyj, hprint, recorded, houtcome, hrest⟩
      have hji : j ≠ i := by
        rintro rfl
        rw [hnone] at houtcome
        cases houtcome
      refine ⟨j, List.mem_append_left _ hj, hkeyj, hprint, recorded, ?_, hrest⟩
      simp only [State.commit, Function.update_of_ne hji]
      exact houtcome
  · rw [hkeys]
    by_cases hkey : (calls j).key = (calls i).key
    · rw [hkey, Function.update_self, Option.isSome_some]
    · rw [Function.update_of_ne hkey]
      rcases List.mem_append.mp hj with hj | hj
      · exact h.keys.present j hj
      · exact absurd (by rw [List.mem_singleton.mp hj]) hkey
  · simp only [State.commit, List.map_append, List.map_singleton]
    refine List.nodup_append.mpr ⟨h.keys.nodup, List.nodup_singleton _, ?_⟩
    intro key hmem other hother
    rcases List.mem_map.mp hmem with ⟨j, hj, rfl⟩
    rw [List.mem_singleton.mp hother]
    exact hfresh j hj

/-- A commit keeps the invariant. -/
theorem Inv.commit {s : State ι} (h : Inv calls s) {i : ι} {stage : Stage} {answer : Answer}
    (hs : s.stage i = .keyed answer) (hstage : stage.outcome = some answer) :
    Inv calls (s.commit i stage) := by
  have hkeyed := h.stage i
  rw [hs] at hkeyed
  rcases hkeyed with ⟨w, k, hpending, hready, hkey⟩
  have hnone : (s.stage i).outcome = none := by
    rw [hs]
    rfl
  refine ⟨h.held.commit i, ?_, fun j => ?_, fun j => ?_,
    KeysInv.commit h hnone hstage hpending hready hkey⟩
  · change RowsInv (s.view i)
    rw [view_keyed hpending]
    rcases hready with ⟨_, _, _, _, _, hw, _⟩
    rcases hkey with ⟨_, rfl, hk, _⟩
    exact (h.rows.apply hw).apply hk
  · by_cases hji : j = i
    · subst hji
      simp only [State.commit, Function.update_self]
      -- Only a call that is over has an outcome, and it has nothing pending.
      cases stage with
      | committed | unanswered => exact Database.pending_commit_self _ _
      | _ => cases hstage
    · have hkept : Kept calls s (s.commit i stage) j :=
        Kept.commit h hji hnone hpending hready hkey
      have hsame : (s.commit i stage).stage j = s.stage j := Function.update_of_ne hji _ _
      rw [hsame]
      exact (h.stage j).kept hkept
  · by_cases hji : j = i
    · subst hji
      simp only [State.commit, Function.update_self, hstage, Option.isSome_some, iff_true]
      exact List.mem_append_right _ (List.mem_singleton_self j)
    · have hsame : (s.commit i stage).stage j = s.stage j := Function.update_of_ne hji _ _
      rw [hsame, ← h.took j]
      simp only [State.commit, List.mem_append, List.mem_singleton, hji, or_false]

/-- Every step keeps the invariant: what a call rests on next is what it just
    saw. -/
theorem Inv.effect {s s' : State ι} {i : ι} (h : Inv calls s) (he : Effect calls s i s') :
    Inv calls s' := by
  have hstage := h.stage i
  have hopen : ∀ stage, s.stage i = stage → stage.Open → (s.stage i).Open := by
    intro stage hs ho
    rwa [hs]
  cases he with
  | connect hs =>
      rw [hs] at hstage
      exact h.goto (hopen _ hs trivial) rfl hstage
  | absent hs _ =>
      rw [hs] at hstage
      exact h.goto (hopen _ hs trivial) rfl hstage
  | @replay remembered answer hs hrow hr =>
      have hopen : (s.stage i).Open := by
        rcases hs with hs | hs <;>
          · rw [hs]
            trivial
      have hpending : s.db.pending i = [] := by
        rcases hs with hs | hs <;>
          · rw [hs] at hstage
            exact hstage
      rw [view_eq hpending] at hrow
      exact h.goto hopen rfl
        ⟨hpending, (h.answered hrow hr).move (Stage.outcome_eq_none hopen)⟩
  | locate hs hfree hcheck =>
      rw [hs] at hstage
      rw [view_eq hstage] at hcheck
      exact h.locate hs hfree (check_iff.mp hcheck)
  | @write draft id now hs hstorable hfree haccepts =>
      rw [hs] at hstage
      rcases hstage with ⟨hpending, hfinds, hlock⟩
      rw [view_eq hpending] at haccepts
      refine h.insert (hopen _ hs trivial) (Stage.outcome_wrote _ _) hfree
        (stageInv_wrote ?_ ⟨draft, id, now, ⟨hfinds, ?_⟩, rfl, hstorable, haccepts⟩)
      · rw [pending_insert, hpending, List.nil_append]
      · exact fun r hr => Database.holder_acquire_of_holder hfree (hlock r hr)
  | references hs _ =>
      rw [hs] at hstage
      rcases hstage with ⟨w, hpending, hready, _⟩
      exact h.share (hopen _ hs trivial) rfl ⟨w, hpending, hready⟩
  | @insertKey answer now hs hstorable hfree haccepts =>
      rw [hs] at hstage
      rcases hstage with ⟨w, hpending, hready⟩
      have hview : s.view i = s.db.committed.apply w := by
        rw [State.view, Database.view, hpending]
        rfl
      have hkey : s.db.committed.Accepts (.key (calls i).key (keyRow (calls i) answer now)) :=
        hready.accepts_key.mp (hview ▸ haccepts)
      rcases hready with ⟨draft, id, now', ⟨hfinds, hlock⟩, hwrite, hw, hwa⟩
      refine h.insert (hopen _ hs trivial) rfl hfree ⟨w, _, ?_, ⟨draft, id, now', ⟨hfinds, ?_⟩,
        hwrite, hw, hwa⟩, now, rfl, hstorable, hkey⟩
      · rw [pending_insert, hpending, List.singleton_append]
      · exact fun r hr => Database.holder_acquire_of_holder hfree (hlock r hr)
  | collide hs => exact h.goto (hopen _ hs trivial) rfl trivial
  | undo hs => exact h.close (hopen _ hs trivial) rfl (Database.pending_rollback_self _ _)
  | commit hs hout => exact h.commit hs hout
  | answer hs =>
      rw [hs] at hstage
      have ho := hopen _ hs trivial
      exact h.close ho rfl ⟨Database.pending_rollback_self _ _,
        hstage.2.move (Stage.outcome_eq_none ho)⟩
  | raise ho => exact h.close ho rfl (Database.pending_rollback_self _ _)

/-- The invariant holds wherever the store gets to. -/
theorem inv_of_reachable {policies : Str → Option Policy} {s : State ι}
    (h : (machine calls policies).Reachable s) : Inv calls s := by
  refine h.induct ?_ ?_
  · rintro s rfl
    refine ⟨Database.held_quiet _, nofun, fun _ => rfl, fun i => ?_, nofun, nofun, List.nodup_nil⟩
    exact ⟨nofun, nofun⟩
  · rintro s ⟨i, a⟩ s' hs hstep
    exact hs.effect (effect_of_step hstep)

/-! ### What a call comes to -/

/-- A step leaves the committed tables alone, unless it is the commit of the
    call's own write. -/
theorem commits_of_effect {s s' : State ι} {i : ι} (h : Inv calls s) (he : Effect calls s i s') :
    (s'.db.committed = s.db.committed ∧ s'.commits = s.commits) ∨
      (s'.db.committed ≠ s.db.committed ∧ s'.commits = s.commits ++ [i]) := by
  cases he with
  | locate => exact Or.inl ⟨State.committed_locate _ _ _ _, rfl⟩
  | commit hs hout =>
      refine Or.inr ⟨fun hsame => ?_, rfl⟩
      -- The key's row is one more.
      have hkeyed := h.stage i
      rw [hs] at hkeyed
      rcases hkeyed with ⟨w, k, _, _, _, rfl, _, hfresh⟩
      have hpresent := (h.commit hs hout).keys.present i
        (List.mem_append_right _ (List.mem_singleton_self i))
      rw [hsame, hfresh] at hpresent
      cases hpresent
  | connect | absent | replay | write | references | insertKey | collide | undo | answer | raise =>
      exact Or.inl ⟨rfl, rfl⟩

/-- What changes the committed tables is the commit of a call that recorded its
    key. -/
theorem keyed_of_effect {s s' : State ι} {i : ι} (he : Effect calls s i s')
    (hne : s'.db.committed ≠ s.db.committed) :
    ∃ answer, s.stage i = .keyed answer ∧ s'.db.committed = s.view i := by
  cases he with
  | commit hs _ => exact ⟨_, hs, rfl⟩
  | locate => exact absurd (State.committed_locate _ _ _ _) hne
  | connect | absent | replay | write | references | insertKey | collide | undo | answer | raise =>
      exact absurd rfl hne

/-- The store where a write is one step, with the identifier it is given and the
    clock's times. -/
def atOnce (policies : Str → Option Policy) :
    Machine Tables (Request × Uuid × Moment × Moment) where
  init t := t = initial policies
  step t act :=
    match idempotent t act.1 act.2.1 act.2.2.1 act.2.2.2 with
    | .ok (_, after) => some after
    | .error _ => none

/-- Whatever any number of interleaved calls leave, calls one after another
    could have left. -/
theorem reachable_atOnce {policies : Str → Option Policy} {s : State ι}
    (h : (machine calls policies).Reachable s) :
    (atOnce policies).Reachable s.db.committed := by
  refine h.of_simulation (n := atOnce policies) (fun s => s.db.committed)
    (by rintro t rfl; rfl) ?_
  rintro t ⟨i, a⟩ t' ht hstep
  have hinv := inv_of_reachable ht
  have he := effect_of_step hstep
  rcases commits_of_effect hinv he with ⟨hsame, _⟩ | ⟨hne, _⟩
  · exact ⟨[], congrArg some hsame.symm⟩
  · -- Only a commit changes anything, and it is one call alone.
    rcases keyed_of_effect he hne with ⟨answer, hs, hview⟩
    rcases idempotent_of_keyed hinv hs with ⟨id, now, keyedAt, halone⟩
    refine ⟨[(calls i, id, now, keyedAt)], Machine.run_of_step ?_⟩
    simp only [atOnce, halone, hview]

/-- The calls that changed the committed tables in a run are those whose effect
    is recorded. -/
theorem changes_iff {policies : Str → Option Policy} {as : List (ι × Statement)} {s : State ι}
    (hrun : (machine calls policies).run (start policies) as = some s) (i : ι) :
    (machine calls policies).Changes (fun s => s.db.committed) (fun a => a.1 = i)
      (start policies) as ↔ i ∈ s.commits := by
  refine Machine.Reachable.changes_iff (Q := fun s => i ∈ s.commits) ?_
    (Machine.reachable_init rfl) List.not_mem_nil hrun
  rintro t ⟨j, a⟩ t' ht hstep
  rcases commits_of_effect (inv_of_reachable ht) (effect_of_step hstep) with
    ⟨hsame, hcommits⟩ | ⟨hne, hcommits⟩
  · simp only [hcommits, hsame, ne_eq, not_true, and_false, or_false]
  · simp only [hcommits, List.mem_append, List.mem_singleton, hne, ne_eq, not_false_iff, and_true,
      eq_comm]

/-- However any number of calls interleave: no two calls with one key have an
    effect; what a call returns is the outcome of a call that had one, with the
    same key and the same request; a call whose key holds another request's row
    has none, and neither has one that raised. -/
theorem answers_of_run {policies : Str → Option Policy} {as : List (ι × Statement)} {s : State ι}
    (hrun : (machine calls policies).run (start policies) as = some s) :
    let effective i := (machine calls policies).Changes (fun s => s.db.committed)
      (fun a => a.1 = i) (start policies) as
    (∀ i j, effective i → effective j → (calls i).key = (calls j).key → i = j) ∧
      (∀ i answer, (s.stage i).value = some answer →
        ∃ j, effective j ∧ (calls j).key = (calls i).key ∧
          fingerprint (calls j).call = fingerprint (calls i).call ∧
          (s.stage j).outcome = some answer) ∧
      (∀ i row, s.db.committed.idempotencyKeys (calls i).key = some row →
        row.fingerprint ≠ fingerprint (calls i).call → ¬ effective i) ∧
      ∀ i error, s.stage i = .raised error → ¬ effective i := by
  have h : Inv calls s := inv_of_reachable ⟨start policies, as, rfl, hrun⟩
  have hunique : ∀ i ∈ s.commits, ∀ j ∈ s.commits, (calls i).key = (calls j).key → i = j :=
    fun i hi j hj => List.inj_on_of_nodup_map h.keys.nodup hi hj
  simp only [changes_iff hrun]
  refine ⟨fun i j hi hj => hunique i hi j hj, ?_, ?_, ?_⟩
  · intro i answer hvalue
    have hstage := h.stage i
    cases hs : s.stage i with
    | returned replayed =>
        rw [hs] at hstage hvalue
        cases hvalue
        exact hstage.2
    | committed written =>
        rw [hs] at hvalue
        cases hvalue
        refine ⟨i, (h.took i).mpr ?_, rfl, rfl, ?_⟩ <;> rw [hs] <;> rfl
    | _ =>
        rw [hs] at hvalue
        cases hvalue
  · intro i row hrow hprint hi
    rcases h.keys.recorded _ row hrow with ⟨j, hj, hkey, hrowPrint, _⟩
    rw [hunique j hj i hi hkey] at hrowPrint
    exact hprint hrowPrint
  · intro i error hs hi
    have hsome := (h.took i).mp hi
    rw [hs] at hsome
    cases hsome

/-- Of three callers there is a first. -/
instance instNeZeroThree : NeZero 3 :=
  ⟨by decide⟩

/-- A submission of a policy the systems hold. -/
def submitted : ClaimSubmission :=
  ⟨text "SIM-2026-0001", ⟨2026, 1, 2, Date.newYear.year_valid, Date.newYear.month_valid, by decide⟩,
    ⟨⟨100, 0⟩, by decide, by decide, by decide⟩, by decide⟩

/-- Two attempts at one write at once: both find the key unrecorded and write,
    the second one's key waits for the first one's commit, and is refused. -/
def twoAttempts : List (Bool × Statement) :=
  let now : Moment := ⟨.third, .noon⟩
  [(true, .connect), (false, .connect), (true, .remember), (false, .remember), (true, .check),
    (false, .check), (true, .write ⟨1, Uuid.one_valid⟩ now),
    (false, .write ⟨2, Uuid.two_valid⟩ now),
    (true, .insertKey now), (true, .commit), (false, .insertKey now), (false, .undo),
    (false, .rememberAgain), (false, .commit)]

set_option maxRecDepth 100000 in
theorem answers_of_run_twoAttempts :
    ∃ s : State Bool, (s.stage false).value.isSome ∧
      ∃ j, (machine (fun _ : Bool => ⟨.create submitted, text "k"⟩) Tables.seeded.policies).Changes
          (fun s => s.db.committed) (fun a => a.1 = j) (start Tables.seeded.policies) twoAttempts ∧
        (s.stage j).outcome = (s.stage false).value := by
  have hrun : (((machine (fun _ : Bool => ⟨.create submitted, text "k"⟩)
      Tables.seeded.policies).run (start Tables.seeded.policies) twoAttempts).map
        fun s => (s.stage false).value.isSome) = some true := by decide +kernel
  rcases Option.map_eq_some_iff.mp hrun with ⟨s, hs, hvalue⟩
  rcases Option.isSome_iff_exists.mp hvalue with ⟨answer, hanswer⟩
  rcases (answers_of_run hs).2.1 false answer hanswer with ⟨j, hj, _, _, houtcome⟩
  exact ⟨s, hvalue, j, hj, houtcome.trans hanswer.symm⟩

end Runs

end CoreSim

end ClaimTriage
