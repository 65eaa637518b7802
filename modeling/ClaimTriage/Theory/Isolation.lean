import Mathlib.Data.Finset.Basic
import Mathlib.Logic.Function.Basic

/-!
# Read Committed Databases

A database shared by transactions at the isolation level READ COMMITTED, with
what that level promises and nothing more.

`committed` is what every transaction sees of the others. What a transaction
wrote is pending until it ends: it sees its own writes on top of the committed
state (`view`), nobody else sees them, and they become committed together or
are dropped together. Each statement reads the committed state of its own
moment, so two statements of one transaction may see different ones; nothing
here takes a snapshot.

Waiting is one mechanism for every reason to wait. A resource is an advisory
lock, a row, or an entry of a unique index; it is held by at most one open
transaction, from the statement that takes it until the transaction ends.
A statement that needs a resource somebody else holds is not enabled (`Free`),
and it reads the committed state only once it is. A unique index therefore
makes the second insert of a key wait for the outcome of the first, and a row
lock makes the second reader for update read what the first committed.

A row may also be shared, by any number of transactions until they end: whoever
shares it waits for the one that holds it, and whoever wants to hold it waits
for all that share it (`Unshared`). A foreign key shares the row it refers to.

The database and the writes are parameters, and so is how a write applies:
this layer knows when a write is seen and when it lasts, not what it says.

## Main definitions

* `Database`: The committed state, what is pending, and who holds or shares what.
* `Database.view`: The committed state as one transaction sees it.
* `Database.Free`, `Database.Unshared`: A resource nobody else holds, and one
  nobody else shares.
* `Database.Has`: A transaction holds a resource, or shares it.
* `Database.acquire`, `Database.share`, `Database.write`: Taking a resource,
  sharing it, writing.
* `Database.commit`, `Database.rollback`: The two ends of a transaction.
* `Database.Guarded`: A table appended to under a lock only.
* `Database.Rows`: A property of every row there is and every pending one.
* `Database.Held`: Whoever has a write pending holds what the write needs.

## Theorems

* `view_write_self`, `view_write_other`: A write is seen by its own
  transaction only.
* `holder_commit`, `holder_rollback`: What a transaction held is free once it
  ended, and nothing else changes hands.
* `has_commit`, `has_rollback`: And neither does what others share.
* `map_view`: A table that is only ever appended to, as one transaction sees
  it.
* `Guarded.view_of_not_holder`, `Guarded.view_commit_of_holder`: Under the lock
  at most one transaction is ahead of the committed table, and nobody else's
  commit moves it.
* `Held.need_ne`: Two transactions have no pending writes that need the same.
-/

namespace Theory

/-- A database shared by transactions named by `ι`: what is committed, what
    each open transaction wrote and has not committed, which transaction holds
    each resource, and which ones share it. -/
structure Database (Db W R ι : Type*) where
  committed : Db
  pending : ι → List W
  holder : R → Option ι
  sharers : R → Finset ι

namespace Database

variable {Db W R ι : Type*} (apply : Db → W → Db)

/-- The committed state with nothing pending and nothing held or shared. -/
def quiet (db : Db) : Database Db W R ι :=
  { committed := db, pending := fun _ => [], holder := fun _ => none, sharers := fun _ => ∅ }

/-- The committed state as transaction `i` sees it, its own writes on top. -/
def view (d : Database Db W R ι) (i : ι) : Db :=
  (d.pending i).foldl apply d.committed

/-- Nobody but `i` holds the resource. -/
def Free (d : Database Db W R ι) (r : R) (i : ι) : Prop :=
  d.holder r = none ∨ d.holder r = some i

instance [DecidableEq ι] (d : Database Db W R ι) (r : R) (i : ι) : Decidable (d.Free r i) :=
  inferInstanceAs (Decidable (_ ∨ _))

/-- Nobody but `i` shares the resource. -/
def Unshared (d : Database Db W R ι) (r : R) (i : ι) : Prop :=
  ∀ j ∈ d.sharers r, j = i

instance [DecidableEq ι] (d : Database Db W R ι) (r : R) (i : ι) : Decidable (d.Unshared r i) :=
  inferInstanceAs (Decidable (∀ j ∈ d.sharers r, j = i))

/-- The transaction holds the resource, or shares it. -/
def Has (d : Database Db W R ι) (r : R) (i : ι) : Prop :=
  d.holder r = some i ∨ i ∈ d.sharers r

/-- Hold the resource until the transaction ends. -/
def acquire [DecidableEq R] (d : Database Db W R ι) (r : R) (i : ι) : Database Db W R ι :=
  { d with holder := Function.update d.holder r (some i) }

/-- Share the resource until the transaction ends. -/
def share [DecidableEq R] [DecidableEq ι] (d : Database Db W R ι) (r : R) (i : ι) :
    Database Db W R ι :=
  { d with sharers := Function.update d.sharers r (insert i (d.sharers r)) }

/-- Write, as pending. -/
def write [DecidableEq ι] (d : Database Db W R ι) (i : ι) (w : W) : Database Db W R ι :=
  { d with pending := Function.update d.pending i (d.pending i ++ [w]) }

/-- Who holds what, once `i` let go of everything. -/
def released [DecidableEq ι] (d : Database Db W R ι) (i : ι) (r : R) : Option ι :=
  if d.holder r = some i then none else d.holder r

/-- End the transaction with everything it wrote. -/
def commit [DecidableEq ι] (d : Database Db W R ι) (i : ι) : Database Db W R ι :=
  { committed := d.view apply i
    pending := Function.update d.pending i []
    holder := d.released i
    sharers := fun r => (d.sharers r).erase i }

/-- End the transaction with nothing it wrote. -/
def rollback [DecidableEq ι] (d : Database Db W R ι) (i : ι) : Database Db W R ι :=
  { d with
    pending := Function.update d.pending i []
    holder := d.released i
    sharers := fun r => (d.sharers r).erase i }

variable {apply}

/-- What a transaction cannot take, another one holds. -/
theorem exists_has_of_not_free {d : Database Db W R ι} {r : R} {i : ι} (h : ¬ d.Free r i) :
    ∃ j, j ≠ i ∧ d.Has r j := by
  simp only [Free, not_or] at h
  rcases Option.ne_none_iff_exists'.mp h.1 with ⟨j, hj⟩
  refine ⟨j, ?_, Or.inl hj⟩
  rintro rfl
  exact h.2 hj

/-- What others share, one of them shares. -/
theorem exists_has_of_not_unshared {d : Database Db W R ι} {r : R} {i : ι}
    (h : ¬ d.Unshared r i) : ∃ j, j ≠ i ∧ d.Has r j := by
  simp only [Unshared, not_forall] at h
  rcases h with ⟨j, hj, hji⟩
  exact ⟨j, hji, Or.inr hj⟩

theorem view_of_pending_nil {d : Database Db W R ι} {i : ι} (h : d.pending i = []) :
    d.view apply i = d.committed := by
  rw [view, h, List.foldl_nil]

/-! ### Taking and sharing -/

section Taking

variable [DecidableEq R]

@[simp]
theorem committed_acquire (d : Database Db W R ι) (r : R) (i : ι) :
    (d.acquire r i).committed = d.committed := rfl

@[simp]
theorem pending_acquire (d : Database Db W R ι) (r : R) (i : ι) :
    (d.acquire r i).pending = d.pending := rfl

@[simp]
theorem view_acquire (d : Database Db W R ι) (r : R) (i j : ι) :
    (d.acquire r i).view apply j = d.view apply j := rfl

@[simp]
theorem holder_acquire_self (d : Database Db W R ι) (r : R) (i : ι) :
    (d.acquire r i).holder r = some i := by
  simp only [acquire, Function.update_self]

/-- Taking a free resource takes nothing away from anybody. -/
theorem holder_acquire_of_holder {d : Database Db W R ι} {r q : R} {i j : ι}
    (hfree : d.Free r i) (h : d.holder q = some j) : (d.acquire r i).holder q = some j := by
  by_cases hqr : q = r
  · subst hqr
    rcases hfree with hnone | hsome
    · exact absurd h (by rw [hnone]; exact Option.some_ne_none j ∘ Eq.symm)
    · rw [holder_acquire_self, ← hsome, h]
  · simp only [acquire, Function.update_of_ne hqr, h]

@[simp]
theorem committed_share [DecidableEq ι] (d : Database Db W R ι) (r : R) (i : ι) :
    (d.share r i).committed = d.committed := rfl

@[simp]
theorem pending_share [DecidableEq ι] (d : Database Db W R ι) (r : R) (i : ι) :
    (d.share r i).pending = d.pending := rfl

@[simp]
theorem holder_share [DecidableEq ι] (d : Database Db W R ι) (r : R) (i : ι) :
    (d.share r i).holder = d.holder := rfl

/-- Whoever has something once a resource is taken had it before, or it is what
    was taken. -/
theorem Has.of_acquire {d : Database Db W R ι} {r q : R} {i j : ι} (h : (d.acquire r i).Has q j) :
    d.Has q j ∨ q = r ∧ j = i := by
  by_cases hqr : q = r
  · subst hqr
    rcases h with hheld | hshared
    · rw [holder_acquire_self, Option.some.injEq] at hheld
      exact Or.inr ⟨rfl, hheld.symm⟩
    · exact Or.inl (Or.inr hshared)
  · simp only [Has, acquire, Function.update_of_ne hqr] at h
    exact Or.inl h

/-- Whoever has something once a resource is shared had it before, or it is what
    was shared. -/
theorem Has.of_share [DecidableEq ι] {d : Database Db W R ι} {r q : R} {i j : ι}
    (h : (d.share r i).Has q j) : d.Has q j ∨ q = r ∧ j = i := by
  by_cases hqr : q = r
  · subst hqr
    simp only [Has, share, Function.update_self, Finset.mem_insert] at h
    rcases h with hheld | rfl | hshared
    · exact Or.inl (Or.inl hheld)
    · exact Or.inr ⟨rfl, rfl⟩
    · exact Or.inl (Or.inr hshared)
  · simp only [Has, share, Function.update_of_ne hqr] at h
    exact Or.inl h

end Taking

/-! ### Writing and ending -/

section Ending

variable [DecidableEq ι]

@[simp]
theorem committed_write (d : Database Db W R ι) (i : ι) (w : W) :
    (d.write i w).committed = d.committed := rfl

@[simp]
theorem holder_write (d : Database Db W R ι) (i : ι) (w : W) :
    (d.write i w).holder = d.holder := rfl

@[simp]
theorem pending_write_self (d : Database Db W R ι) (i : ι) (w : W) :
    (d.write i w).pending i = d.pending i ++ [w] := by
  simp only [write, Function.update_self]

theorem pending_write_other (d : Database Db W R ι) {i j : ι} (w : W) (h : j ≠ i) :
    (d.write i w).pending j = d.pending j := by
  simp only [write, Function.update_of_ne h]

/-- A transaction sees what it wrote. -/
@[simp]
theorem view_write_self (d : Database Db W R ι) (i : ι) (w : W) :
    (d.write i w).view apply i = apply (d.view apply i) w := by
  simp only [view, pending_write_self, List.foldl_append, List.foldl_cons, List.foldl_nil,
    committed_write]

/-- Nobody else does. -/
theorem view_write_other (d : Database Db W R ι) {i j : ι} (w : W) (h : j ≠ i) :
    (d.write i w).view apply j = d.view apply j := by
  simp only [view, pending_write_other d w h, committed_write]

@[simp]
theorem committed_commit (d : Database Db W R ι) (i : ι) :
    (d.commit apply i).committed = d.view apply i := rfl

@[simp]
theorem pending_commit_self (d : Database Db W R ι) (i : ι) :
    (d.commit apply i).pending i = [] := by
  simp only [commit, Function.update_self]

theorem pending_commit_other (d : Database Db W R ι) {i j : ι} (h : j ≠ i) :
    (d.commit apply i).pending j = d.pending j := by
  simp only [commit, Function.update_of_ne h]

@[simp]
theorem view_commit_self (d : Database Db W R ι) (i : ι) :
    (d.commit apply i).view apply i = d.view apply i :=
  view_of_pending_nil (pending_commit_self d i)

@[simp]
theorem committed_rollback (d : Database Db W R ι) (i : ι) :
    (d.rollback i).committed = d.committed := rfl

@[simp]
theorem pending_rollback_self (d : Database Db W R ι) (i : ι) :
    (d.rollback i).pending i = [] := by
  simp only [rollback, Function.update_self]

theorem pending_rollback_other (d : Database Db W R ι) {i j : ι} (h : j ≠ i) :
    (d.rollback i).pending j = d.pending j := by
  simp only [rollback, Function.update_of_ne h]

@[simp]
theorem view_rollback_self (d : Database Db W R ι) (i : ι) :
    (d.rollback i).view apply i = d.committed :=
  view_of_pending_nil (pending_rollback_self d i)

theorem view_rollback_other (d : Database Db W R ι) {i j : ι} (h : j ≠ i) :
    (d.rollback i).view apply j = d.view apply j := by
  simp only [view, pending_rollback_other d h, committed_rollback]

theorem released_eq_some {d : Database Db W R ι} {i j : ι} {r : R} :
    d.released i r = some j ↔ d.holder r = some j ∧ j ≠ i := by
  unfold released
  by_cases h : d.holder r = some i
  · rw [if_pos h]
    constructor
    · exact fun hn => absurd hn.symm (Option.some_ne_none j)
    · rintro ⟨hj, hne⟩
      rw [h, Option.some.injEq] at hj
      exact absurd hj.symm hne
  · rw [if_neg h]
    refine ⟨fun hj => ⟨hj, fun hji => h (hji ▸ hj)⟩, fun hj => hj.1⟩

/-- A commit frees what its transaction held, and nothing else changes
    hands. -/
theorem holder_commit {d : Database Db W R ι} {i j : ι} {r : R} :
    (d.commit apply i).holder r = some j ↔ d.holder r = some j ∧ j ≠ i :=
  released_eq_some

/-- A rollback frees what its transaction held, and nothing else changes
    hands. -/
theorem holder_rollback {d : Database Db W R ι} {i j : ι} {r : R} :
    (d.rollback i).holder r = some j ↔ d.holder r = some j ∧ j ≠ i :=
  released_eq_some

/-- Whoever has something after a commit had it before, and is another. -/
theorem has_commit {d : Database Db W R ι} {i j : ι} {r : R} :
    (d.commit apply i).Has r j ↔ d.Has r j ∧ j ≠ i := by
  rw [Has, Has, holder_commit, commit, Finset.mem_erase]
  tauto

/-- Whoever has something after a rollback had it before, and is another. -/
theorem has_rollback {d : Database Db W R ι} {i j : ι} {r : R} :
    (d.rollback i).Has r j ↔ d.Has r j ∧ j ≠ i := by
  rw [Has, Has, holder_rollback, rollback, Finset.mem_erase]
  tauto

end Ending

/-! ### Tables that are only appended to -/

section Appended

variable {Row : Type*} {rows : Db → List Row} {added : W → List Row} {lock : R}

/-- A write appends what it adds to the table, and changes no row of it. -/
def AppendOnly (apply : Db → W → Db) (rows : Db → List Row) (added : W → List Row) : Prop :=
  ∀ db w, rows (apply db w) = rows db ++ added w

/-- What a transaction sees of a table that is only ever appended to: the
    committed rows, then the rows it appended itself. -/
theorem map_view (happ : AppendOnly apply rows added) (d : Database Db W R ι) (i : ι) :
    rows (d.view apply i) = rows d.committed ++ (d.pending i).flatMap added := by
  unfold view
  generalize d.committed = db
  induction d.pending i generalizing db with
  | nil => simp only [List.foldl_nil, List.flatMap_nil, List.append_nil]
  | cons w ws ih =>
      rw [List.foldl_cons, ih, happ, List.flatMap_cons, List.append_assoc]

/-- Whoever appended to the table and has not ended yet holds the lock. -/
def Guarded (added : W → List Row) (lock : R) (d : Database Db W R ι) : Prop :=
  ∀ i, (d.pending i).flatMap added ≠ [] → d.holder lock = some i

theorem guarded_quiet (db : Db) : Guarded added lock (quiet db : Database Db W R ι) :=
  fun _ h => absurd rfl h

theorem Guarded.acquire [DecidableEq R] {d : Database Db W R ι} (hg : Guarded added lock d)
    {r : R} {i : ι} (hfree : d.Free r i) : Guarded added lock (d.acquire r i) :=
  fun j hj => holder_acquire_of_holder hfree (hg j hj)

/-- A write keeps the table guarded if it adds nothing to it, or its
    transaction holds the lock. -/
theorem Guarded.write [DecidableEq ι] {d : Database Db W R ι} (hg : Guarded added lock d)
    {i : ι} {w : W} (h : added w = [] ∨ d.holder lock = some i) :
    Guarded added lock (d.write i w) := by
  intro j hj
  rw [holder_write]
  -- Only the one that writes has more to keep to than before.
  by_cases hji : j = i
  · subst hji
    rcases h with hnone | hheld
    · rw [pending_write_self, List.flatMap_append, List.flatMap_singleton, hnone,
        List.append_nil] at hj
      exact hg j hj
    · exact hheld
  · rw [pending_write_other d w hji] at hj
    exact hg j hj

theorem Guarded.commit [DecidableEq ι] {d : Database Db W R ι} (hg : Guarded added lock d) (i : ι) :
    Guarded added lock (d.commit apply i) := by
  intro j hj
  by_cases hji : j = i
  · subst hji
    rw [pending_commit_self] at hj
    exact absurd rfl hj
  · rw [pending_commit_other d hji] at hj
    exact holder_commit.mpr ⟨hg j hj, hji⟩

theorem Guarded.rollback [DecidableEq ι] {d : Database Db W R ι} (hg : Guarded added lock d)
    (i : ι) : Guarded added lock (d.rollback i) := by
  intro j hj
  by_cases hji : j = i
  · subst hji
    rw [pending_rollback_self] at hj
    exact absurd rfl hj
  · rw [pending_rollback_other d hji] at hj
    exact holder_rollback.mpr ⟨hg j hj, hji⟩

/-- A transaction that does not hold the lock sees the committed rows. -/
theorem Guarded.view_of_not_holder {d : Database Db W R ι} (hg : Guarded added lock d)
    (happ : AppendOnly apply rows added) {i : ι} (h : d.holder lock ≠ some i) :
    rows (d.view apply i) = rows d.committed := by
  have hnil : (d.pending i).flatMap added = [] := by
    by_contra hne
    exact h (hg i hne)
  rw [map_view happ, hnil, List.append_nil]

/-- What the holder of the lock sees is not changed by another transaction's
    commit: that one has appended nothing. -/
theorem Guarded.view_commit_of_holder [DecidableEq ι] {d : Database Db W R ι}
    (hg : Guarded added lock d) (happ : AppendOnly apply rows added) {i j : ι} (hne : j ≠ i)
    (h : d.holder lock = some j) :
    rows ((d.commit apply i).view apply j) = rows (d.view apply j) := by
  have hnot : d.holder lock ≠ some i := by
    rw [h, ne_eq, Option.some.injEq]
    exact hne
  rw [map_view happ, map_view happ, committed_commit, hg.view_of_not_holder happ hnot,
    pending_commit_other d hne]

/-- Every committed row of the table has a property, and every pending one. -/
structure Rows (rows : Db → List Row) (added : W → List Row) (P : Row → Prop)
    (d : Database Db W R ι) : Prop where
  committed : ∀ r ∈ rows d.committed, P r
  pending : ∀ i, ∀ r ∈ (d.pending i).flatMap added, P r

variable {P : Row → Prop}

theorem Rows.acquire [DecidableEq R] {d : Database Db W R ι} (h : d.Rows rows added P) (r : R)
    (i : ι) : (d.acquire r i).Rows rows added P :=
  ⟨h.committed, h.pending⟩

/-- A write keeps the property if the rows it appends have it. -/
theorem Rows.write [DecidableEq ι] {d : Database Db W R ι} (h : d.Rows rows added P) {i : ι} {w : W}
    (hw : ∀ r ∈ added w, P r) : (d.write i w).Rows rows added P := by
  refine ⟨h.committed, fun j r hr => ?_⟩
  by_cases hji : j = i
  · subst hji
    rw [pending_write_self, List.flatMap_append, List.flatMap_singleton] at hr
    rcases List.mem_append.mp hr with hr | hr
    · exact h.pending j r hr
    · exact hw r hr
  · rw [pending_write_other d w hji] at hr
    exact h.pending j r hr

/-- Every row a transaction sees has the property. -/
theorem Rows.view {d : Database Db W R ι} (h : d.Rows rows added P)
    (happ : AppendOnly apply rows added) (i : ι) : ∀ r ∈ rows (d.view apply i), P r := by
  intro r hr
  rw [map_view happ] at hr
  rcases List.mem_append.mp hr with hr | hr
  · exact h.committed r hr
  · exact h.pending i r hr

theorem Rows.commit [DecidableEq ι] {d : Database Db W R ι} (h : d.Rows rows added P)
    (happ : AppendOnly apply rows added) (i : ι) : (d.commit apply i).Rows rows added P := by
  refine ⟨h.view happ i, fun j r hr => ?_⟩
  by_cases hji : j = i
  · subst hji
    rw [pending_commit_self] at hr
    cases hr
  · rw [pending_commit_other d hji] at hr
    exact h.pending j r hr

theorem Rows.rollback [DecidableEq ι] {d : Database Db W R ι} (h : d.Rows rows added P) (i : ι) :
    (d.rollback i).Rows rows added P := by
  refine ⟨h.committed, fun j r hr => ?_⟩
  by_cases hji : j = i
  · subst hji
    rw [pending_rollback_self] at hr
    cases hr
  · rw [pending_rollback_other d hji] at hr
    exact h.pending j r hr

end Appended

/-! ### Writes that need what their transaction holds -/

section Needed

variable {need : W → R}

/-- Whoever has a write pending holds what the write needs. -/
def Held (need : W → R) (d : Database Db W R ι) : Prop :=
  ∀ i, ∀ w ∈ d.pending i, d.holder (need w) = some i

theorem held_quiet (db : Db) : Held need (quiet db : Database Db W R ι) :=
  fun _ _ hw => absurd hw List.not_mem_nil

theorem Held.acquire [DecidableEq R] {d : Database Db W R ι} (h : Held need d) {r : R} {i : ι}
    (hfree : d.Free r i) : Held need (d.acquire r i) :=
  fun j v hv => holder_acquire_of_holder hfree (h j v hv)

/-- A write keeps that, if its transaction holds what it needs. -/
theorem Held.write [DecidableEq ι] {d : Database Db W R ι} (h : Held need d) {i : ι} {w : W}
    (hw : d.holder (need w) = some i) : Held need (d.write i w) := by
  intro j v hv
  rw [holder_write]
  -- Only the one that writes has a row more, and it holds that row's lock.
  by_cases hji : j = i
  · subst hji
    rw [pending_write_self] at hv
    rcases List.mem_append.mp hv with hv | hv
    · exact h j v hv
    · rw [List.mem_singleton.mp hv]
      exact hw
  · rw [pending_write_other d w hji] at hv
    exact h j v hv

theorem Held.commit [DecidableEq ι] {d : Database Db W R ι} (h : Held need d) (i : ι) :
    Held need (d.commit apply i) := by
  intro j v hv
  by_cases hji : j = i
  · subst hji
    rw [pending_commit_self] at hv
    cases hv
  · rw [pending_commit_other d hji] at hv
    exact holder_commit.mpr ⟨h j v hv, hji⟩

theorem Held.rollback [DecidableEq ι] {d : Database Db W R ι} (h : Held need d) (i : ι) :
    Held need (d.rollback i) := by
  intro j v hv
  by_cases hji : j = i
  · subst hji
    rw [pending_rollback_self] at hv
    cases hv
  · rw [pending_rollback_other d hji] at hv
    exact holder_rollback.mpr ⟨h j v hv, hji⟩

/-- Two transactions have no pending writes that need the same. -/
theorem Held.need_ne {d : Database Db W R ι} (h : Held need d) {i j : ι} (hne : i ≠ j) {v w : W}
    (hv : v ∈ d.pending i) (hw : w ∈ d.pending j) : need v ≠ need w := by
  intro heq
  have hi := h i v hv
  rw [heq, h j w hw, Option.some.injEq] at hi
  exact hne hi.symm

end Needed

end Database

end Theory
