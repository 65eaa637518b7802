import ClaimTriage.CoreSim.Store
import ClaimTriage.Theory.Isolation
import ClaimTriage.Theory.Machine

/-!
# Applying the Schema

How a store's tables come to be there: on the first connection it opens, under
a flag that says they are.

Both stores open every connection the same way. If the flag is set the
connection is used as it is; if not, it waits for a lock, looks at the flag
again, and applies the schema's statements before it sets it. The statements are
part of the connection's own transaction, so nobody else sees what they create
before that transaction commits, and nobody ever does if it is rolled back. The
flag is neither: it is set at once, for every thread, and stays set.

What the flag promises is therefore kept exactly by the runs in which nobody
finds it set before the transaction that set it has committed. `SetterCommitted`
says that of a state, and `visible_iff_of_run` is that exactness, with what
follows from it: in those runs no statement misses a table.

## Main definitions

* `Object`, `SchemaStatement`: What a schema makes, statement by statement.
* `Store.schema`: The two stores' schemas.
* `Stage`, `step`: How far a connection has got, and what comes next.
* `Finds`: A connection that is being opened finds the flag set.
* `SetterCommitted`: The transaction that set the flag has committed.

## Theorems

* `inv_of_reachable`: What the flag and the committed tables say of each other.
* `visible_iff`: A connection that finds the flag set sees the schema exactly if
  the transaction that set it has committed.
* `visible_iff_of_run`: So it is along a run, and then no table is ever missed.
-/

namespace ClaimTriage

open Theory Text

namespace Schema

/-! ### What a schema makes -/

/-- What statements refer to: a table, a column, or a policy the systems
    hold. -/
inductive Object where
  | table (name : Str)
  | column (table name : Str)
  | policy (policyNumber : Str)
  deriving DecidableEq

/-- One statement of a schema: what it refers to, and what is there once it ran.
    Each of them does nothing where that is there already. -/
structure SchemaStatement where
  needs : List Object
  provides : List Object
  deriving DecidableEq

/-- `CREATE TABLE IF NOT EXISTS`, with the tables it references. -/
def createTable (name : String) (references : List String) : SchemaStatement where
  needs := references.map fun other => .table (text other)
  provides := [.table (text name)]

/-- `ALTER TABLE … ADD COLUMN IF NOT EXISTS`. -/
def addColumn (table name : String) : SchemaStatement where
  needs := [.table (text table)]
  provides := [.column (text table) (text name)]

/-- `INSERT … ON CONFLICT DO NOTHING` of a policy. -/
def seedPolicy (policy : Policy) : SchemaStatement where
  needs := [.table (text "policies")]
  provides := [.policy policy.policyNumber]

/-- The two stores that apply a schema. -/
inductive Store where
  | coreSim
  | triage
  deriving DecidableEq

/-- What a store applies before its first use. -/
def Store.schema : Store → List SchemaStatement
  | coreSim =>
    [createTable "policies" [], createTable "claims" [], createTable "claim_documents" ["claims"],
      createTable "claim_parties" ["claims"], createTable "idempotency_keys" []] ++
      CoreSim.seedPolicies.map seedPolicy
  | triage =>
    [createTable "triage_runs" [], createTable "audit_log" [],
      addColumn "triage_runs" "guard_verdicts", addColumn "audit_log" "guard_verdicts"]

/-- Everything a store's schema makes. -/
def Store.objects (store : Store) : List Object :=
  store.schema.flatMap (·.provides)

/-- What is there after one more statement. -/
def apply (catalog : List Object) (statement : SchemaStatement) : List Object :=
  catalog ++ statement.provides

/-- Every statement refers to what is there, or was made before it. -/
def wellOrdered (made : List Object) : List SchemaStatement → Bool
  | [] => true
  | statement :: rest =>
    statement.needs.all (made.contains ·) && wellOrdered (made ++ statement.provides) rest

theorem wellOrdered_schema (store : Store) : wellOrdered [] store.schema = true := by
  cases store <;> decide +kernel

/-- What a statement refers to is made by those before it. -/
theorem needs_of_wellOrdered {made : List Object} {before rest : List SchemaStatement}
    {statement : SchemaStatement} (h : wellOrdered made (before ++ statement :: rest) = true) :
    ∀ o ∈ statement.needs, o ∈ made ++ before.flatMap (·.provides) := by
  induction before generalizing made with
  | nil =>
      rw [List.flatMap_nil, List.append_nil]
      intro o ho
      rw [List.nil_append, wellOrdered, Bool.and_eq_true, List.all_eq_true] at h
      exact List.contains_iff_mem.mp (h.1 o ho)
  | cons first before ih =>
      rw [List.cons_append, wellOrdered, Bool.and_eq_true] at h
      rw [List.flatMap_cons, ← List.append_assoc]
      exact ih h.2

theorem objects_ne_nil (store : Store) : store.objects ≠ [] := by
  cases store <;> decide +kernel

/-! ### Opening a connection -/

/-- How far a connection has got: opened, having found the flag not set,
    holding the lock, applying what is left of the schema, past all that, or
    over. -/
inductive Stage where
  | unopened
  | opened
  | unlocked
  | locked
  | applying (rest : List SchemaStatement)
  | working
  | committed
  | rolledBack
  | undefinedTable
  deriving DecidableEq

/-- The connection holds the store's lock. -/
def Stage.Locking : Stage → Prop
  | locked | applying _ => True
  | _ => False

/-- The connection is open. -/
def Stage.Open : Stage → Prop
  | unopened | committed | rolledBack | undefinedTable => False
  | _ => True

instance (stage : Stage) : Decidable stage.Open := by
  cases stage <;> simp only [Stage.Open] <;> infer_instance

/-- What a connection does next. -/
inductive Statement where
  | connect
  | check
  | lock
  | recheck
  | apply
  | setFlag
  | use (object : Object)
  | commit
  | fail

/-- One store and its database: the flag, who holds the lock, every connection's
    stage, and which connection set the flag. -/
structure State (ι : Type) where
  db : Database (List Object) SchemaStatement Empty ι
  schemaApplied : Bool
  schemaLock : Option ι
  stage : ι → Stage
  setter : Option ι

namespace State

variable {ι : Type} [DecidableEq ι]

/-- What is there as a connection sees it. -/
def view (s : State ι) (i : ι) : List Object :=
  s.db.view Schema.apply i

/-- Another stage for one connection. -/
def goto (s : State ι) (i : ι) (stage : Stage) : State ι :=
  { s with stage := Function.update s.stage i stage }

/-- The lock, once a connection let go of it. -/
def unlocked (s : State ι) (i : ι) : Option ι :=
  if s.schemaLock = some i then none else s.schemaLock

/-- A connection's transaction rolled back, and the lock let go of. -/
def abandon (s : State ι) (i : ι) (stage : Stage) : State ι :=
  { s with db := s.db.rollback i, schemaLock := s.unlocked i,
           stage := Function.update s.stage i stage }

/-- The transaction that set the flag has committed. -/
def SetterCommitted (s : State ι) : Prop :=
  ∃ j, s.setter = some j ∧ s.stage j = .committed

end State

section Machine

variable {ι : Type} [DecidableEq ι] (store : Store)

/-- What comes of a connection's next statement. -/
def step (s : State ι) (act : ι × Statement) : Option (State ι) :=
  let i := act.1
  match act.2, s.stage i with
  | .connect, .unopened => some (s.goto i .opened)
  | .check, .opened => some (s.goto i (if s.schemaApplied then .working else .unlocked))
  | .lock, .unlocked =>
    if s.schemaLock = none then
      some { s with schemaLock := some i, stage := Function.update s.stage i .locked }
    else none
  -- Whoever had the lock before may have set the flag.
  | .recheck, .locked =>
    if s.schemaApplied then
      some { s with schemaLock := none, stage := Function.update s.stage i .working }
    else some (s.goto i (.applying store.schema))
  | .apply, .applying (statement :: rest) =>
    if ∀ o ∈ statement.needs, o ∈ s.view i then
      some { s with db := s.db.write i statement,
                    stage := Function.update s.stage i (.applying rest) }
    else some (s.abandon i .undefinedTable)
  -- The flag is set before anything is committed.
  | .setFlag, .applying [] =>
    some { s with schemaApplied := true, schemaLock := none, setter := some i,
                  stage := Function.update s.stage i .working }
  | .use object, .working =>
    if object ∈ store.objects then
      if object ∈ s.view i then some s else some (s.abandon i .undefinedTable)
    else none
  | .commit, .working =>
    some { s with db := s.db.commit Schema.apply i,
                  stage := Function.update s.stage i .committed }
  | .fail, stage => if stage.Open then some (s.abandon i .rolledBack) else none
  | _, _ => none

/-- An empty database, and a store that has not been used. -/
def start : State ι where
  db := Database.quiet []
  schemaApplied := false
  schemaLock := none
  stage _ := .unopened
  setter := none

/-- A store over a database, from an empty one. -/
def machine (ι : Type) [DecidableEq ι] (store : Store) : Machine (State ι) (ι × Statement) where
  init s := s = start
  step := step store

end Machine

/-- A connection that is being opened finds the flag set: when it connects, when
    it first looks at the flag, or when it looks again under the lock. -/
def Finds {ι : Type} (s : State ι) (act : ι × Statement) : Prop :=
  s.schemaApplied = true ∧
    match act.2, s.stage act.1 with
    | .connect, .unopened | .check, .opened | .recheck, .locked => True
    | _, _ => False

section Runs

variable {ι : Type} [DecidableEq ι] {store : Store}

/-! ### What a step can do -/

/-- Everything a step of connection `i` can do, with what had to hold for it. -/
inductive Effect (store : Store) (s : State ι) (i : ι) : Statement → State ι → Prop
  | connect : s.stage i = .unopened → Effect store s i .connect (s.goto i .opened)
  | pass : s.stage i = .opened → s.schemaApplied = true →
      Effect store s i .check (s.goto i .working)
  | miss : s.stage i = .opened → s.schemaApplied = false →
      Effect store s i .check (s.goto i .unlocked)
  | lock : s.stage i = .unlocked → s.schemaLock = none →
      Effect store s i .lock
        { s with schemaLock := some i, stage := Function.update s.stage i .locked }
  | passLocked : s.stage i = .locked → s.schemaApplied = true →
      Effect store s i .recheck
        { s with schemaLock := none, stage := Function.update s.stage i .working }
  | begin : s.stage i = .locked → s.schemaApplied = false →
      Effect store s i .recheck (s.goto i (.applying store.schema))
  | apply {statement : SchemaStatement} {rest : List SchemaStatement} :
      s.stage i = .applying (statement :: rest) →
      Effect store s i .apply
        { s with db := s.db.write i statement,
                 stage := Function.update s.stage i (.applying rest) }
  | missApplying {statement : SchemaStatement} {rest : List SchemaStatement} {o : Object} :
      s.stage i = .applying (statement :: rest) → o ∈ statement.needs → o ∉ s.view i →
      Effect store s i .apply (s.abandon i .undefinedTable)
  | setFlag : s.stage i = .applying [] →
      Effect store s i .setFlag
        { s with schemaApplied := true, schemaLock := none, setter := some i,
                 stage := Function.update s.stage i .working }
  | use {o : Object} : Effect store s i (.use o) s
  | missWorking {o : Object} : s.stage i = .working → o ∈ store.objects → o ∉ s.view i →
      Effect store s i (.use o) (s.abandon i .undefinedTable)
  | commit : s.stage i = .working →
      Effect store s i .commit
        { s with db := s.db.commit Schema.apply i,
                 stage := Function.update s.stage i .committed }
  | fail : (s.stage i).Open → Effect store s i .fail (s.abandon i .rolledBack)

/-- Every step is one of the cases. -/
theorem effect_of_step {s s' : State ι} {i : ι} {a : Statement}
    (h : step store s (i, a) = some s') : Effect store s i a s' := by
  simp only [step] at h
  split at h
  · rename_i hs
    cases h
    exact .connect hs
  · rename_i hs
    cases hflag : s.schemaApplied with
    | true =>
        rw [hflag, if_pos rfl, Option.some.injEq] at h
        exact h ▸ .pass hs hflag
    | false =>
        rw [hflag, if_neg Bool.false_ne_true, Option.some.injEq] at h
        exact h ▸ .miss hs hflag
  · rename_i hs
    by_cases hlock : s.schemaLock = none
    · rw [if_pos hlock, Option.some.injEq] at h
      exact h ▸ .lock hs hlock
    · rw [if_neg hlock] at h
      cases h
  · rename_i hs
    cases hflag : s.schemaApplied with
    | true =>
        rw [hflag, if_pos rfl, Option.some.injEq] at h
        rw [← hflag] at h
        exact h ▸ .passLocked hs hflag
    | false =>
        rw [hflag, if_neg Bool.false_ne_true, Option.some.injEq] at h
        exact h ▸ .begin hs hflag
  · rename_i statement rest hs
    by_cases hneeds : ∀ o ∈ statement.needs, o ∈ s.view i
    · rw [if_pos hneeds, Option.some.injEq] at h
      exact h ▸ .apply hs
    · rw [if_neg hneeds, Option.some.injEq] at h
      simp only [not_forall] at hneeds
      rcases hneeds with ⟨o, ho, hmiss⟩
      exact h ▸ .missApplying hs ho hmiss
  · rename_i hs
    cases h
    exact .setFlag hs
  · rename_i o hs
    by_cases hmade : o ∈ store.objects
    · by_cases hseen : o ∈ s.view i
      · rw [if_pos hmade, if_pos hseen, Option.some.injEq] at h
        exact h ▸ .use
      · rw [if_pos hmade, if_neg hseen, Option.some.injEq] at h
        exact h ▸ .missWorking hs hmade hseen
    · rw [if_neg hmade] at h
      cases h
  · rename_i hs
    cases h
    exact .commit hs
  · by_cases hopen : (s.stage i).Open
    · rw [if_pos hopen, Option.some.injEq] at h
      exact h ▸ .fail hopen
    · rw [if_neg hopen] at h
      cases h
  · cases h

/-! ### What the flag and the tables say of each other -/

/-- What a connection has pending. A connection applies the schema while the
    flag is not set, and one that works does so since it is; only the one that
    set it has the schema pending. -/
def StageInv (store : Store) (s : State ι) (i : ι) : Stage → Prop
  | .applying rest =>
    s.schemaApplied = false ∧ ∃ done, store.schema = done ++ rest ∧ s.db.pending i = done
  | .working =>
    s.schemaApplied = true ∧ s.db.pending i = if s.setter = some i then store.schema else []
  | _ => s.db.pending i = []

/-- The connection has got past opening. -/
def Stage.Past : Stage → Prop
  | working | committed | rolledBack | undefinedTable => True
  | _ => False

/-- The invariant of a store: what is committed is the schema if the transaction
    that set the flag committed, and nothing otherwise. -/
structure Inv (store : Store) (s : State ι) : Prop where
  lock : ∀ i, (s.stage i).Locking → s.schemaLock = some i
  stage : ∀ i, StageInv store s i (s.stage i)
  flag : s.schemaApplied = true ↔ s.setter.isSome
  setter : ∀ j, s.setter = some j → (s.stage j).Past
  settled : s.SetterCommitted → s.db.committed = store.objects
  unsettled : ¬ s.SetterCommitted → s.db.committed = []

theorem apply_appendOnly :
    Database.AppendOnly apply (fun catalog => catalog) SchemaStatement.provides :=
  fun _ _ => rfl

omit [DecidableEq ι] in
/-- What a connection sees: what is committed, and what it made. -/
theorem view_eq (s : State ι) (i : ι) :
    s.view i = s.db.committed ++ (s.db.pending i).flatMap (·.provides) :=
  Database.map_view apply_appendOnly s.db i

omit [DecidableEq ι] in
theorem view_of_nil {s : State ι} {i : ι} (h : s.db.pending i = []) :
    s.view i = s.db.committed :=
  Database.view_of_pending_nil h

/-- What a connection has pending is still right when the flag and who set it are
    as they were. -/
theorem StageInv.of_same {s s' : State ι} {j : ι} {stage : Stage} (h : StageInv store s j stage)
    (hflag : s'.schemaApplied = s.schemaApplied) (hsetter : s'.setter = s.setter)
    (hpending : s'.db.pending j = s.db.pending j) : StageInv store s' j stage := by
  cases stage with
  | applying rest =>
      rcases h with ⟨hfalse, done, hsplit, hdone⟩
      exact ⟨hflag.trans hfalse, done, hsplit, hpending.trans hdone⟩
  | working =>
      refine ⟨hflag.trans h.1, ?_⟩
      rw [hpending, hsetter]
      exact h.2
  | unopened | opened | unlocked | locked | committed | rolledBack | undefinedTable =>
      exact hpending.trans h

/-- Whether the transaction that set the flag committed is not decided by a
    connection that neither was nor becomes committed. -/
theorem setterCommitted_update {s : State ι} {i : ι} {stage : Stage}
    (d : Database (List Object) SchemaStatement Empty ι) (lock : Option ι)
    (hbefore : s.stage i ≠ .committed) (hafter : stage ≠ .committed) :
    State.SetterCommitted { s with db := d, schemaLock := lock,
                                   stage := Function.update s.stage i stage } ↔
      s.SetterCommitted := by
  have hiff : ∀ j, Function.update s.stage i stage j = .committed ↔ s.stage j = .committed := by
    intro j
    by_cases hji : j = i
    · subst hji
      rw [Function.update_self]
      exact ⟨fun h => absurd h hafter, fun h => absurd h hbefore⟩
    · rw [Function.update_of_ne hji]
  unfold State.SetterCommitted
  simp only [hiff]

/-- A step that commits nothing and leaves the flag as it is. -/
theorem Inv.move {s : State ι} (h : Inv store s) {i : ι} {stage : Stage}
    {d : Database (List Object) SchemaStatement Empty ι} {lock : Option ι}
    (hbefore : s.stage i ≠ .committed) (hafter : stage ≠ .committed)
    (hcommitted : d.committed = s.db.committed)
    (hpending : ∀ j, j ≠ i → d.pending j = s.db.pending j)
    (hlock : ∀ j, j ≠ i → s.schemaLock = some j → lock = some j)
    (hself : stage.Locking → lock = some i)
    (hpast : (s.stage i).Past → stage.Past)
    (hmoved : StageInv store { s with db := d, schemaLock := lock,
                                      stage := Function.update s.stage i stage } i stage) :
    Inv store { s with db := d, schemaLock := lock, stage := Function.update s.stage i stage } := by
  have hsettled := setterCommitted_update d lock hbefore hafter
  refine ⟨fun j hj => ?_, fun j => ?_, h.flag, fun j hj => ?_, fun hs => ?_, fun hs => ?_⟩
  · by_cases hji : j = i
    · subst hji
      simp only [Function.update_self] at hj
      exact hself hj
    · simp only [Function.update_of_ne hji] at hj
      exact hlock j hji (h.lock j hj)
  · by_cases hji : j = i
    · subst hji
      simp only [Function.update_self]
      exact hmoved
    · simp only [Function.update_of_ne hji]
      exact (h.stage j).of_same rfl rfl (hpending j hji)
  · by_cases hji : j = i
    · subst hji
      simp only [Function.update_self]
      exact hpast (h.setter j hj)
    · simp only [Function.update_of_ne hji]
      exact h.setter j hj
  · exact hcommitted.trans (h.settled (hsettled.mp hs))
  · exact hcommitted.trans (h.unsettled fun hcontra => hs (hsettled.mpr hcontra))

/-- One connection at another stage that is not past opening. -/
theorem Inv.goto {s : State ι} (h : Inv store s) {i : ι} {stage : Stage}
    (hbefore : ¬ (s.stage i).Past) (hafter : stage ≠ .committed)
    (hself : stage.Locking → s.schemaLock = some i)
    (hmoved : StageInv store (s.goto i stage) i stage) : Inv store (s.goto i stage) := by
  refine h.move (d := s.db) ?_ hafter rfl (fun _ _ => rfl) (fun _ _ hj => hj) hself
    (fun hpast => absurd hpast hbefore) hmoved
  intro hcontra
  rw [hcontra] at hbefore
  exact hbefore trivial

/-- One connection that is rolled back. -/
theorem Inv.abandon {s : State ι} (h : Inv store s) {i : ι} {stage : Stage}
    (hopen : (s.stage i).Open) (hover : stage = .rolledBack ∨ stage = .undefinedTable) :
    Inv store (s.abandon i stage) := by
  refine h.move ?_ ?_ rfl (fun j hji => Database.pending_rollback_other _ hji) ?_ ?_ ?_ ?_
  · intro hcontra
    rw [hcontra] at hopen
    exact hopen
  · rcases hover with rfl | rfl <;> nofun
  · intro j hji hj
    rw [State.unlocked, if_neg, hj]
    rw [hj, Option.some.injEq]
    exact hji
  · rcases hover with rfl | rfl <;> exact False.elim
  · rcases hover with rfl | rfl <;> exact fun _ => trivial
  · rcases hover with rfl | rfl <;> exact Database.pending_rollback_self _ _

/-- A connection is not past opening if it stands before that. -/
theorem setter_ne {s : State ι} (h : Inv store s) {i : ι} (hstage : ¬ (s.stage i).Past) :
    s.setter ≠ some i :=
  fun hs => hstage (h.setter i hs)

/-- One connection that goes on to work, having found the flag set. -/
theorem Inv.pass {s : State ι} (h : Inv store s) {i : ι} {lock : Option ι}
    (hbefore : ¬ (s.stage i).Past) (hflag : s.schemaApplied = true) (hpending : s.db.pending i = [])
    (hlock : ∀ j, j ≠ i → s.schemaLock = some j → lock = some j) :
    Inv store
      { s with schemaLock := lock, stage := Function.update s.stage i .working } := by
  refine h.move (d := s.db) ?_ nofun rfl (fun _ _ => rfl) hlock False.elim
    (fun _ => trivial) ⟨hflag, ?_⟩
  · intro hcontra
    rw [hcontra] at hbefore
    exact hbefore trivial
  · rw [if_neg (setter_ne h hbefore)]
    exact hpending

/-- Setting the flag: the lock kept everybody else from applying the schema, and
    nobody works before it is set. -/
theorem Inv.setFlag {s : State ι} (h : Inv store s) {i : ι} (hs : s.stage i = .applying []) :
    Inv store { s with schemaApplied := true, schemaLock := none, setter := some i,
                       stage := Function.update s.stage i .working } := by
  have hstage := h.stage i
  rw [hs] at hstage
  rcases hstage with ⟨hflag, done, hsplit, hpending⟩
  rw [List.append_nil] at hsplit
  have hlock : s.schemaLock = some i := h.lock i (by rw [hs]; trivial)
  have hempty : s.db.committed = [] := by
    refine h.unsettled ?_
    rintro ⟨j, hj, _⟩
    have hset := h.flag.mpr (by rw [hj]; rfl)
    rw [hflag] at hset
    cases hset
  refine ⟨fun j hj => ?_, fun j => ?_, ⟨fun _ => rfl, fun _ => rfl⟩, fun j hj => ?_, ?_,
    fun _ => hempty⟩
  · exfalso
    by_cases hji : j = i
    · subst hji
      simp only [Function.update_self] at hj
      exact hj
    · simp only [Function.update_of_ne hji] at hj
      have hother := h.lock j hj
      rw [hlock, Option.some.injEq] at hother
      exact hji hother.symm
  · by_cases hji : j = i
    · subst hji
      simp only [Function.update_self]
      refine ⟨rfl, ?_⟩
      rw [if_pos rfl, hsplit]
      exact hpending
    · simp only [Function.update_of_ne hji]
      have hother := h.stage j
      cases hj : s.stage j with
      | applying rest =>
          have hheld := h.lock j (by rw [hj]; trivial)
          rw [hlock, Option.some.injEq] at hheld
          exact absurd hheld.symm hji
      | working =>
          rw [hj] at hother
          exact absurd hother.1 (by rw [hflag]; exact Bool.false_ne_true)
      | unopened | opened | unlocked | locked | committed | rolledBack | undefinedTable =>
          rw [hj] at hother
          exact hother
  · cases hj
    simp only [Function.update_self]
    trivial
  · rintro ⟨j, hj, hcommitted⟩
    cases hj
    simp only [Function.update_self] at hcommitted
    cases hcommitted

/-- A commit: the schema is there if the connection set the flag, and what was
    there still is if it did not. -/
theorem Inv.commit {s : State ι} (h : Inv store s) {i : ι} (hs : s.stage i = .working) :
    Inv store { s with db := s.db.commit Schema.apply i,
                       stage := Function.update s.stage i .committed } := by
  have hstage := h.stage i
  rw [hs] at hstage
  rcases hstage with ⟨hflag, hpending⟩
  have hcommitted : (s.db.commit Schema.apply i).committed = s.view i := rfl
  refine ⟨fun j hj => ?_, fun j => ?_, h.flag, fun j hj => ?_, ?_, ?_⟩
  · by_cases hji : j = i
    · subst hji
      simp only [Function.update_self] at hj
      exact hj.elim
    · simp only [Function.update_of_ne hji] at hj
      exact h.lock j hj
  · by_cases hji : j = i
    · subst hji
      simp only [Function.update_self]
      exact Database.pending_commit_self _ _
    · simp only [Function.update_of_ne hji]
      exact (h.stage j).of_same rfl rfl (Database.pending_commit_other _ hji)
  · by_cases hji : j = i
    · subst hji
      simp only [Function.update_self]
      trivial
    · simp only [Function.update_of_ne hji]
      exact h.setter j hj
  · rintro ⟨j, hj, hstagej⟩
    simp only [hcommitted, view_eq]
    by_cases hji : j = i
    · subst hji
      rw [if_pos hj] at hpending
      have hempty : s.db.committed = [] := by
        refine h.unsettled ?_
        rintro ⟨k, hk, hstagek⟩
        rw [hj, Option.some.injEq] at hk
        subst hk
        rw [hs] at hstagek
        cases hstagek
      rw [hempty, hpending, List.nil_append]
      rfl
    · rw [if_neg (fun hi => hji (Option.some.inj (hj.symm.trans hi)))] at hpending
      simp only [Function.update_of_ne hji] at hstagej
      rw [hpending, List.flatMap_nil, List.append_nil]
      exact h.settled ⟨j, hj, hstagej⟩
  · intro hnot
    have hne : s.setter ≠ some i := by
      intro hi
      exact hnot ⟨i, hi, Function.update_self _ _ _⟩
    rw [if_neg hne] at hpending
    simp only [hcommitted, view_eq, hpending, List.flatMap_nil, List.append_nil]
    refine h.unsettled ?_
    rintro ⟨j, hj, hstagej⟩
    have hji : j ≠ i := by
      rintro rfl
      exact hne hj
    refine hnot ⟨j, hj, ?_⟩
    simp only [Function.update_of_ne hji]
    exact hstagej

/-- Every step keeps the invariant. -/
theorem Inv.effect {s s' : State ι} {i : ι} {a : Statement} (h : Inv store s)
    (he : Effect store s i a s') : Inv store s' := by
  have hstage := h.stage i
  have hnot : ∀ stage, s.stage i = stage → ¬ stage.Past → ¬ (s.stage i).Past := by
    intro stage hs hstage
    rwa [hs]
  have hopen : ∀ stage, s.stage i = stage → stage.Open → (s.stage i).Open := by
    intro stage hs hstage
    rwa [hs]
  cases he with
  | connect hs =>
      rw [hs] at hstage
      exact h.goto (hnot _ hs id) nofun False.elim hstage
  | pass hs hflag =>
      rw [hs] at hstage
      exact h.pass (hnot _ hs id) hflag hstage fun _ _ hj => hj
  | miss hs _ =>
      rw [hs] at hstage
      exact h.goto (hnot _ hs id) nofun False.elim hstage
  | lock hs hfree =>
      rw [hs] at hstage
      refine h.move (d := s.db) ?_ nofun rfl (fun _ _ => rfl) ?_ (fun _ => rfl) ?_ hstage
      · rw [hs]
        nofun
      · intro j _ hj
        rw [hfree] at hj
        cases hj
      · rw [hs]
        exact False.elim
  | passLocked hs hflag =>
      rw [hs] at hstage
      refine h.pass (hnot _ hs id) hflag hstage ?_
      intro j hji hj
      rw [h.lock i (by rw [hs]; trivial), Option.some.injEq] at hj
      exact absurd hj.symm hji
  | begin hs hflag =>
      rw [hs] at hstage
      exact h.goto (hnot _ hs id) nofun (fun _ => h.lock i (by rw [hs]; trivial))
        ⟨hflag, [], rfl, hstage⟩
  | @apply statement rest hs =>
      rw [hs] at hstage
      rcases hstage with ⟨hflag, done, hsplit, hpending⟩
      have hlock := h.lock i (by rw [hs]; trivial)
      refine h.move ?_ nofun rfl (fun j hji => Database.pending_write_other _ _ hji)
        (fun _ _ hj => hj) (fun _ => hlock) ?_ ⟨hflag, done ++ [statement], ?_, ?_⟩
      · rw [hs]
        nofun
      · rw [hs]
        exact False.elim
      · rw [hsplit, List.append_assoc, List.singleton_append]
      · simp only [Database.pending_write_self, hpending]
  | missApplying hs _ _ => exact h.abandon (hopen _ hs trivial) (Or.inr rfl)
  | setFlag hs => exact h.setFlag hs
  | use => exact h
  | missWorking hs _ _ => exact h.abandon (hopen _ hs trivial) (Or.inr rfl)
  | commit hs => exact h.commit hs
  | fail ho => exact h.abandon ho (Or.inl rfl)

/-- The invariant holds wherever a store gets to. -/
theorem inv_of_reachable {s : State ι} (h : (machine ι store).Reachable s) : Inv store s := by
  refine h.induct ?_ ?_
  · rintro s rfl
    refine ⟨nofun, fun _ => rfl, ⟨nofun, nofun⟩, nofun, ?_, fun _ => rfl⟩
    rintro ⟨j, hj, _⟩
    cases hj
  · rintro s ⟨i, a⟩ s' hs hstep
    exact hs.effect (effect_of_step hstep)

/-! ### Who sees the schema -/

/-- A connection that finds the flag set sees everything the schema makes exactly
    if the transaction that set the flag has committed. -/
theorem visible_iff {s : State ι} (h : Inv store s) {act : ι × Statement} (hfinds : Finds s act) :
    (∀ o ∈ store.objects, o ∈ s.view act.1) ↔ s.SetterCommitted := by
  have hpending : s.db.pending act.1 = [] := by
    have hstage := h.stage act.1
    rcases hfinds with ⟨_, hfinds⟩
    split at hfinds
    · rename_i hs
      rwa [hs] at hstage
    · rename_i hs
      rwa [hs] at hstage
    · rename_i hs
      rwa [hs] at hstage
    · exact hfinds.elim
  rw [view_of_nil hpending]
  constructor
  · intro hall
    by_contra hnot
    rcases List.exists_mem_of_ne_nil _ (objects_ne_nil store) with ⟨o, ho⟩
    have hmem := hall o ho
    rw [h.unsettled hnot] at hmem
    cases hmem
  · intro hsettled
    rw [h.settled hsettled]
    exact fun o ho => ho

/-- Whoever works has set the flag, or it was set by a transaction that
    committed; and nobody has missed a table. -/
structure Safe (s : State ι) : Prop where
  working : ∀ i, s.stage i = .working → s.setter = some i ∨ s.SetterCommitted
  missed : ∀ i, s.stage i ≠ .undefinedTable

/-- A connection that works, where nobody found the flag set too early, sees
    everything the schema makes. -/
theorem Safe.visible {s : State ι} (hsafe : Safe s) (h : Inv store s) {i : ι}
    (hs : s.stage i = .working) : ∀ o ∈ store.objects, o ∈ s.view i := by
  intro o ho
  rw [view_eq]
  rcases hsafe.working i hs with hset | hsettled
  · have hstage := h.stage i
    rw [hs] at hstage
    rcases hstage with ⟨_, hpending⟩
    rw [if_pos hset] at hpending
    rw [hpending]
    exact List.mem_append_right _ ho
  · rw [h.settled hsettled]
    exact List.mem_append_left _ ho

/-- A step of a connection that does not come to work without the schema, and
    does not miss a table. -/
theorem Safe.move {s : State ι} (hsafe : Safe s) {i : ι} {stage : Stage}
    {d : Database (List Object) SchemaStatement Empty ι} {lock : Option ι}
    (hbefore : s.stage i ≠ .committed) (hafter : stage ≠ .committed)
    (hmissed : stage ≠ .undefinedTable)
    (hworking : stage = .working → s.setter = some i ∨ s.SetterCommitted) :
    Safe { s with db := d, schemaLock := lock, stage := Function.update s.stage i stage } := by
  have hsettled := setterCommitted_update d lock hbefore hafter
  refine ⟨fun j hj => ?_, fun j => ?_⟩
  · rw [hsettled]
    by_cases hji : j = i
    · subst hji
      simp only [Function.update_self] at hj
      exact hworking hj
    · simp only [Function.update_of_ne hji] at hj
      exact hsafe.working j hj
  · by_cases hji : j = i
    · subst hji
      simp only [Function.update_self]
      exact hmissed
    · simp only [Function.update_of_ne hji]
      exact hsafe.missed j

/-- Every step keeps that, where whoever finds the flag set finds it set by a
    transaction that has committed. -/
theorem Safe.effect {s s' : State ι} {i : ι} {a : Statement} (hsafe : Safe s) (h : Inv store s)
    (hguard : Finds s (i, a) → s.SetterCommitted) (he : Effect store s i a s') : Safe s' := by
  have hbefore : ∀ stage, s.stage i = stage → stage ≠ .committed → s.stage i ≠ .committed := by
    intro stage hs hne
    rwa [hs]
  have hstage := h.stage i
  cases he with
  | connect hs => exact hsafe.move (d := s.db) (hbefore _ hs nofun) nofun nofun nofun
  | pass hs hflag =>
      refine hsafe.move (d := s.db) (hbefore _ hs nofun) nofun nofun fun _ => Or.inr (hguard ?_)
      refine ⟨hflag, ?_⟩
      rw [hs]
      trivial
  | miss hs _ => exact hsafe.move (d := s.db) (hbefore _ hs nofun) nofun nofun nofun
  | lock hs _ => exact hsafe.move (d := s.db) (hbefore _ hs nofun) nofun nofun nofun
  | passLocked hs hflag =>
      refine hsafe.move (d := s.db) (hbefore _ hs nofun) nofun nofun fun _ => Or.inr (hguard ?_)
      refine ⟨hflag, ?_⟩
      rw [hs]
      trivial
  | begin hs _ => exact hsafe.move (d := s.db) (hbefore _ hs nofun) nofun nofun nofun
  | apply hs => exact hsafe.move (hbefore _ hs nofun) nofun nofun nofun
  | @missApplying statement rest o hs ho hmiss =>
      -- What a statement of the schema refers to was made by those before it.
      exfalso
      rw [hs] at hstage
      rcases hstage with ⟨_, done, hsplit, hpending⟩
      have hmade := needs_of_wellOrdered (hsplit ▸ wellOrdered_schema store) o ho
      rw [List.nil_append] at hmade
      rw [view_eq, hpending] at hmiss
      exact hmiss (List.mem_append_right _ hmade)
  | setFlag hs =>
      rw [hs] at hstage
      rcases hstage with ⟨hflag, _⟩
      refine ⟨fun j hj => ?_, fun j => ?_⟩
      · by_cases hji : j = i
        · subst hji
          exact Or.inl rfl
        · exfalso
          simp only [Function.update_of_ne hji] at hj
          have hother := h.stage j
          rw [hj] at hother
          exact absurd hother.1 (by rw [hflag]; exact Bool.false_ne_true)
      · by_cases hji : j = i
        · subst hji
          simp only [Function.update_self]
          nofun
        · simp only [Function.update_of_ne hji]
          exact hsafe.missed j
  | use => exact hsafe
  | missWorking hs hmade hmiss => exact absurd (hsafe.visible h hs _ hmade) hmiss
  | commit hs =>
      refine ⟨fun j hj => ?_, fun j => ?_⟩
      · by_cases hji : j = i
        · subst hji
          simp only [Function.update_self] at hj
          cases hj
        · simp only [Function.update_of_ne hji] at hj
          refine (hsafe.working j hj).imp id ?_
          rintro ⟨k, hk, hstagek⟩
          have hki : k ≠ i := by
            rintro rfl
            rw [hs] at hstagek
            cases hstagek
          exact ⟨k, hk, (Function.update_of_ne hki _ _).trans hstagek⟩
      · by_cases hji : j = i
        · subst hji
          simp only [Function.update_self]
          nofun
        · simp only [Function.update_of_ne hji]
          exact hsafe.missed j
  | fail ho =>
      refine hsafe.move ?_ nofun nofun nofun
      intro hs
      rw [hs] at ho
      exact ho

/-- Along any run of either store from an empty database, whoever finds the flag
    set while opening a connection sees everything the schema makes, exactly if
    whoever finds it set finds it set by a transaction that has committed; and
    then no operation ever misses a table. -/
theorem visible_iff_of_run (store : Store) {as : List (ι × Statement)} {s : State ι}
    (hrun : (machine ι store).run start as = some s) :
    ((machine ι store).Along
        (fun t act => Finds t act → ∀ o ∈ store.objects, o ∈ t.view act.1) start as ↔
      (machine ι store).Along (fun t act => Finds t act → t.SetterCommitted) start as) ∧
    ((machine ι store).Along (fun t act => Finds t act → t.SetterCommitted) start as →
      ∀ i, s.stage i ≠ .undefinedTable) := by
  have hstart : (machine ι store).Reachable start := Machine.reachable_init rfl
  refine ⟨hstart.along_congr ?_, fun halong => ?_⟩
  · intro t act ht
    exact forall_congr' fun hfinds => visible_iff (inv_of_reachable ht) hfinds
  · have hboth : Inv store s ∧ Safe s := by
      refine halong.induct (P := fun s => Inv store s ∧ Safe s) ?_ hrun
        ⟨inv_of_reachable hstart, nofun, nofun⟩
      rintro t ⟨i, a⟩ t' ⟨hinv, hsafe⟩ hguard hstep
      have he := effect_of_step hstep
      exact ⟨hinv.effect he, hsafe.effect hinv hguard he⟩
    exact hboth.2.missed

/-- What a first connection does up to setting the flag, over a schema of that
    many statements. -/
def applied (n : Nat) : List (Bool × Statement) :=
  [(true, .connect), (true, .check), (true, .lock), (true, .recheck)] ++
    List.replicate n (true, .apply) ++ [(true, .setFlag)]

/-- The first connection commits, and a second one is opened. -/
def afterCommit : List (Bool × Statement) :=
  applied Store.coreSim.schema.length ++
    [(true, .commit), (false, .connect), (false, .check), (false, .use (.table (text "claims")))]

set_option maxRecDepth 100000 in
theorem visible_iff_of_run_afterCommit :
    ∃ s : State Bool, (machine Bool .coreSim).run start afterCommit = some s ∧
      ((machine Bool .coreSim).Along
          (fun t act => Finds t act → ∀ o ∈ Store.coreSim.objects, o ∈ t.view act.1) start
          afterCommit ↔
        (machine Bool .coreSim).Along (fun t act => Finds t act → t.SetterCommitted) start
          afterCommit) := by
  have hrun : (((machine Bool .coreSim).run start afterCommit).map fun s => s.stage false) =
      some .working := by decide +kernel
  rcases Option.map_eq_some_iff.mp hrun with ⟨s, hs, _⟩
  exact ⟨s, hs, (visible_iff_of_run .coreSim hs).1⟩

/-- The first connection's operation raises, which rolls back what it created;
    a second connection is opened, and asks for a table. -/
def afterRollback (store : Store) (name : String) : List (Bool × Statement) :=
  applied store.schema.length ++ (true, .fail) :: [(false, .connect), (false, .check),
    (false, .use (.table (text name)))]

/-- What a run after the first connection's rollback comes to: the second one
    finds the flag set, and does not see a table the schema makes. -/
theorem not_along_afterRollback {store : Store} {name : String}
    (hmade : .table (text name) ∈ store.objects)
    (hrun : (((machine Bool store).run start (applied store.schema.length ++ [(true, .fail)])).map
      fun t => (t.schemaApplied, t.stage false, t.view false)) = some (true, .unopened, [])) :
    ¬ (machine Bool store).Along
        (fun t act => Finds t act → ∀ o ∈ store.objects, o ∈ t.view act.1) start
        (afterRollback store name) := by
  intro halong
  rcases Option.map_eq_some_iff.mp hrun with ⟨t, ht, hseen⟩
  simp only [Prod.mk.injEq] at hseen
  rcases hseen with ⟨hflag, hstage, hview⟩
  have hfinds : Finds t (false, .connect) := by
    refine ⟨hflag, ?_⟩
    rw [hstage]
    trivial
  have hsplit : afterRollback store name = applied store.schema.length ++ [(true, .fail)] ++
      (false, .connect) :: [(false, .check), (false, .use (.table (text name)))] := by
    rw [List.append_assoc]
    rfl
  have hmem := halong _ _ _ t hsplit ht hfinds _ hmade
  rw [hview] at hmem
  cases hmem

set_option maxRecDepth 100000 in
theorem undefinedTable_afterRollback :
    (¬ (machine Bool .coreSim).Along
        (fun t act => Finds t act → ∀ o ∈ Store.coreSim.objects, o ∈ t.view act.1) start
        (afterRollback .coreSim "policies") ∧
      ((machine Bool .coreSim).run start (afterRollback .coreSim "policies")).map
        (fun s => s.stage false) = some .undefinedTable) ∧
    (¬ (machine Bool .triage).Along
        (fun t act => Finds t act → ∀ o ∈ Store.triage.objects, o ∈ t.view act.1) start
        (afterRollback .triage "triage_runs") ∧
      ((machine Bool .triage).run start (afterRollback .triage "triage_runs")).map
        (fun s => s.stage false) = some .undefinedTable) :=
  ⟨⟨not_along_afterRollback (by decide +kernel) (by decide +kernel), by decide +kernel⟩,
    ⟨not_along_afterRollback (by decide +kernel) (by decide +kernel), by decide +kernel⟩⟩

end Runs

end Schema

end ClaimTriage
