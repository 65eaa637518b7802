import ClaimTriage.CoreSim.History
import ClaimTriage.Theory.Linear

/-!
# Writes, One after the Other

Any number of interleaved writes look like writes done at once, one after the
other.

A write that is committed takes effect at its commit. One that answers with what
its key had recorded takes effect where it read the key's row, and so does one
that the store refuses, which may come out only later: the policy or the claim
it was about was not there when it looked, and since none is ever taken away it
was not there when the key was read either. At its look-up the refusal might be
the wrong one, as the key may have been recorded for another request by then.

A call that the driver or the database failed answered nothing, and nothing of
it is left, unless its commit took: then it is one of the calls of the history.

## Main definitions

* `Does`: One write done at once, or refused.
* `Stage.given`: What a call has answered, or its effect has.
* `Past`: Where a call that has got so far took effect.

## Theorems

* `refusal_of_step`: What a refusal rests on.
* `refused_of_grown`: What is not there was not there before.
* `past_of_run`: Every call of a run has its past.
* `exists_history`: Every run looks like writes done one after the other.
-/

namespace ClaimTriage

open Theory Text Calendar

namespace CoreSim

/-- One write done at once, with the identifier and the clock's times it draws:
    the answer it gives and the tables it leaves, or the refusal, which leaves
    them as they are. -/
inductive Does (t : Tables) (request : Request) : Except Raised Answer → Tables → Prop
  | answer (id : Uuid) (now keyedAt : Moment) {answer : Answer} {after : Tables} :
      idempotent t request id now keyedAt = .ok (answer, after) →
      Does t request (.ok answer) after
  | refuse (id : Uuid) (now keyedAt : Moment) {raised : Raised} :
      idempotent t request id now keyedAt = .error raised → Does t request (.error raised) t

/-- What a call has answered, one of the store's own refusals included, or would
    have if its commit had not been lost. -/
def Stage.given : Stage → Option (Except Raised Answer)
  | returned answer | committed answer | unanswered answer => some (.ok answer)
  | raised error => if error.message.isSome then some (.error error) else none
  | _ => none

section Runs

variable {ι : Type} [DecidableEq ι] {calls : ι → Request} {policies : Str → Option Policy}

/-! ### What a step rests on -/

@[simp]
theorem stage_goto (s : State ι) (i : ι) (stage : Stage) : (s.goto i stage).stage i = stage :=
  Function.update_self _ _ _

@[simp]
theorem stage_locate (s : State ι) (i : ι) (lock : Option Resource) (draft : Draft) :
    (s.locate i lock draft).stage i = .found draft :=
  Function.update_self _ _ _

@[simp]
theorem stage_insert (s : State ι) (i : ι) (w : Write) (stage : Stage) :
    (s.insert i w stage).stage i = stage :=
  Function.update_self _ _ _

@[simp]
theorem stage_share (s : State ι) (i : ι) (r : Resource) (stage : Stage) :
    (s.share i r stage).stage i = stage :=
  Function.update_self _ _ _

@[simp]
theorem stage_close (s : State ι) (i : ι) (stage : Stage) : (s.close i stage).stage i = stage :=
  Function.update_self _ _ _

@[simp]
theorem stage_commit (s : State ι) (i : ι) (stage : Stage) : (s.commit i stage).stage i = stage :=
  Function.update_self _ _ _

/-- A step moves its own call and no other. -/
theorem stage_of_effect {s s' : State ι} {i j : ι} (he : Effect calls s i s') (hji : j ≠ i) :
    s'.stage j = s.stage j := by
  cases he <;> exact Function.update_of_ne hji _ _

/-- A call that looked for its key looked for one a text column takes. -/
theorem storable_of_step {s s' : State ι} {i : ι} {a : Statement}
    (h : step calls s (i, a) = some s') (hs : s.stage i = .connected)
    (hs' : s'.stage i = .absent) : Theory.Storable (calls i).key := by
  by_contra hno
  cases a with
  | remember =>
      simp only [step, hs, if_neg hno, Option.some.injEq] at h
      rw [← h, stage_close] at hs'
      cases hs'
  | fail =>
      simp only [step, hs, Stage.Open, if_true, Option.some.injEq] at h
      rw [← h, stage_close] at hs'
      cases hs'
  | _ => simp only [step, hs, reduceCtorEq] at h

/-- What the driver, the database or a model raises is none of the store's own
    refusals. -/
theorem raised_ne {e error : Raised} (he : e.message = none) (hown : error.message.isSome) :
    Stage.raised e ≠ .raised error := by
  rintro ⟨⟩
  rw [he] at hown
  cases hown

/-- A statement that writes is refused with none of them. -/
theorem not_refused_of_send {s s' refused : State ι} {i : ι} {w : Write} {stage : Stage}
    {error : Raised} (h : s.send i w stage refused = some s') (hs' : s'.stage i = .raised error)
    (hown : error.message.isSome) (hstage : stage ≠ .raised error)
    (hrefused : refused.stage i ≠ .raised error) : False := by
  rcases send_cases h with ⟨_, _, _, rfl⟩ | rfl | rfl
  · exact hstage ((stage_insert _ _ _ _).symm.trans hs')
  · exact hrefused hs'
  · exact raised_ne rfl hown ((stage_close _ _ _).symm.trans hs')

/-- A call settled with a refusal is settled with what its key had recorded. -/
theorem refused_of_settle {s s' : State ι} {i : ι} {given : Except Raised Answer} {error : Raised}
    (h : s.settle i given = s') (hs' : s'.stage i = .raised error) : given = .error error := by
  subst h
  cases given with
  | ok answer =>
      rw [State.settle, stage_goto] at hs'
      cases hs'
  | error e =>
      rw [State.settle, stage_close, Stage.raised.injEq] at hs'
      rw [hs']

/-- What a refusal of the store's own rests on: a key that holds another
    request's row, or a look-up that missed. -/
theorem refusal_of_step {s s' : State ι} {i : ι} {a : Statement} {error : Raised}
    (h : step calls s (i, a) = some s') (hs' : s'.stage i = .raised error)
    (hown : error.message.isSome) :
    ((s.stage i = .connected ∨ s.stage i = .undone) ∧
        ∃ remembered, (s.view i).idempotencyKeys (calls i).key = some remembered ∧
          replayed remembered (calls i) = .error error) ∨
      s.stage i = .absent ∧ check (s.view i) (calls i).call = .error error := by
  have hclose : ∀ {e : Raised}, e.message = none →
      (s.close i (.raised e)).stage i ≠ .raised error :=
    fun he heq => raised_ne he hown ((stage_close _ _ _).symm.trans heq)
  simp only [step] at h
  split at h
  · cases h
    rw [stage_goto] at hs'
    cases hs'
  · rename_i hs
    split at h
    · split at h
      · rename_i remembered hrow
        rw [Option.some.injEq] at h
        exact Or.inl ⟨Or.inl hs, remembered, hrow, refused_of_settle h hs'⟩
      · cases h
        rw [stage_goto] at hs'
        cases hs'
    · cases h
      exact absurd hs' (hclose rfl)
  · rename_i hs
    split at h
    · split at h
      · cases h
        rw [stage_locate] at hs'
        cases hs'
      · rename_i e hcheck
        cases h
        rw [stage_close, Stage.raised.injEq] at hs'
        exact Or.inr ⟨hs, hs' ▸ hcheck⟩
    · cases h
  · refine (not_refused_of_send h hs' hown ?_ (hclose rfl)).elim
    intro heq
    have hopen : (Stage.raised error).Open := heq ▸ Stage.open_wrote _ _
    exact hopen
  · split at h
    · cases h
      rw [stage_share] at hs'
      cases hs'
    · cases h
  · refine (not_refused_of_send h hs' hown (fun heq => by cases heq) fun heq => ?_).elim
    rw [stage_goto] at heq
    cases heq
  · cases h
    rw [stage_close] at hs'
    cases hs'
  · rename_i hs
    split at h
    · rename_i remembered hrow
      rw [Option.some.injEq] at h
      exact Or.inl ⟨Or.inr hs, remembered, hrow, refused_of_settle h hs'⟩
    · cases h
      exact absurd hs' (hclose rfl)
  · cases h
    rw [stage_commit] at hs'
    cases hs'
  · cases h
    rw [stage_close] at hs'
    cases hs'
  · cases h
    rw [stage_commit] at hs'
    cases hs'
  · split at h
    · cases h
      exact absurd hs' (hclose rfl)
    · cases h
  · cases h

/-! ### What was there before -/

/-- A look-up that misses would have missed before: policies do not change, and
    claims are only added. -/
theorem refused_of_grown {t u : Tables} (hgrown : Grown t u) (hpolicies : u.policies = t.policies)
    {call : Call} {error : Raised} (h : check u call = .error error)
    (hown : error.message.isSome) : check t call = .error error := by
  -- A claim that is not there was not there before.
  have hnone : ∀ id, u.claims id = none → t.claims id = none := by
    intro id hu
    cases ht : t.claims id with
    | none => rfl
    | some row =>
        rcases hgrown id row ht with ⟨row', hrow', _⟩
        rw [hu] at hrow'
        cases hrow'
  have hrequire : ∀ id, requireClaim u id = .error error → requireClaim t id = .error error := by
    intro id hu
    unfold requireClaim at hu ⊢
    cases hrow : u.claims id with
    | none => rwa [hrow, ← hnone id hrow] at hu
    | some row => simp only [hrow, Option.isSome_some, if_true, reduceCtorEq] at hu
  cases call with
  | create submission =>
      simp only [check, hpolicies] at h ⊢
      exact h
  | recordStatus claimId status =>
      cases hrow : u.claims claimId with
      | none =>
          simp only [check, hrow, hnone claimId hrow] at h ⊢
          exact h
      | some row => simp only [check, hrow, claimOf_some, Except.map, reduceCtorEq] at h
  | attachDocument claimId attachment =>
      cases hr : requireClaim u claimId with
      | ok _ => simp only [check, hr, Except.map, reduceCtorEq] at h
      | error e =>
          simp only [check, hr, Except.map, Except.error.injEq] at h
          subst h
          simp only [check, hrequire claimId hr, Except.map]
  | recordParty claimId registration =>
      cases hr : requireClaim u claimId with
      | ok _ => simp only [check, hr, Except.map, reduceCtorEq] at h
      | error e =>
          simp only [check, hr, Except.map, Except.error.injEq] at h
          subst h
          simp only [check, hrequire claimId hr, Except.map]

/-- No run changes the policies. -/
theorem policies_of_run {s t : State ι} (h : (machine calls policies).Reachable s)
    {bs : List (ι × Statement)} (hrun : (machine calls policies).run s bs = some t) :
    t.db.committed.policies = s.db.committed.policies := by
  refine h.run_rel (R := fun s t : State ι => t.db.committed.policies = s.db.committed.policies)
    (fun _ => rfl) (fun _ _ _ hst htu => htu.trans hst) ?_ hrun
  rintro s ⟨i, a⟩ s' hs hstep
  have hinv := inv_of_reachable hs
  have he := effect_of_step hstep
  rcases commits_of_effect hinv he with ⟨hsame, _⟩ | ⟨hne, _⟩
  · rw [hsame]
  · rcases keyed_of_effect he hne with ⟨answer, hkeyed, hview⟩
    rcases idempotent_of_keyed hinv hkeyed with ⟨id, now, keyedAt, halone⟩
    rw [hview]
    exact (idempotent_eq_ok.mp halone).2.policies

/-- A key that is recorded is one a text column takes. -/
theorem storable_of_recorded {s : State ι} (h : (machine calls policies).Reachable s) {key : Str}
    {row : KeyRow} (hrow : s.db.committed.idempotencyKeys key = some row) :
    Theory.Storable key := by
  refine (reachable_atOnce h).induct
    (P := fun t => ∀ key row, t.idempotencyKeys key = some row → Theory.Storable key) ?_ ?_ key row
    hrow
  · rintro t rfl key row ⟨⟩
  · rintro t ⟨request, id, now, keyedAt⟩ t' ht hstep key row hrow
    simp only [atOnce] at hstep
    split at hstep
    · rename_i answer after halone
      cases hstep
      rcases idempotent_eq_ok.mp halone with ⟨hkey, hdone⟩
      by_cases hsame : key = request.key
      · exact hsame ▸ hkey
      · rw [hdone.idempotencyKeys hsame] at hrow
        exact ht key row hrow
    · cases hstep

/-! ### One write at once -/

/-- What a key had recorded is what a write at once answers with, or refuses
    with. -/
theorem does_of_replayed {t : Tables} {request : Request} (hkey : Theory.Storable request.key)
    {remembered : KeyRow} (hrow : t.idempotencyKeys request.key = some remembered)
    {given : Except Raised Answer} (hr : replayed remembered request = given) :
    Does t request given t := by
  have halone : ∀ id now keyedAt, idempotent t request id now keyedAt =
      given.map fun answer => (answer, t) := by
    intro id now keyedAt
    simp only [idempotent, if_pos hkey, hrow, hr]
  cases given with
  | ok answer => exact .answer ⟨1, Uuid.one_valid⟩ ⟨.third, .noon⟩ ⟨.third, .noon⟩ (halone _ _ _)
  | error e => exact .refuse ⟨1, Uuid.one_valid⟩ ⟨.third, .noon⟩ ⟨.third, .noon⟩ (halone _ _ _)

/-- A look-up that misses is what a write at once refuses with. -/
theorem does_of_refused {t : Tables} {request : Request} (hkey : Theory.Storable request.key)
    (hrow : t.idempotencyKeys request.key = none) {error : Raised}
    (hcheck : check t request.call = .error error) : Does t request (.error error) t := by
  refine .refuse ⟨1, Uuid.one_valid⟩ ⟨.third, .noon⟩ ⟨.third, .noon⟩ ?_
  simp only [idempotent, if_pos hkey, hrow, hcheck, Except.bind]

/-! ### Where calls take effect -/

section Past

variable (calls policies)

/-- Nothing is seen of a call's steps, but for the one at a given place. -/
def StillBut (as : List (ι × Statement)) (i : ι) (k : Option ℕ) : Prop :=
  ∀ n b t t', (machine calls policies).StepAt (start policies) as n (i, b) t t' → some n ≠ k →
    t'.db.committed = t.db.committed

/-- A call takes effect at one of its steps: the write done at once there gives
    its answer. -/
def TakesEffect (as : List (ι × Statement)) (i : ι) (k : ℕ) (given : Except Raised Answer) :
    Prop :=
  ∃ b t t', (machine calls policies).StepAt (start policies) as k (i, b) t t' ∧
    Does t.db.committed (calls i) given t'.db.committed

/-- A call read its key at one of its steps and found no row. -/
def ReadsNone (as : List (ι × Statement)) (i : ι) : Prop :=
  Theory.Storable (calls i).key ∧ ∃ k b t t',
    (machine calls policies).StepAt (start policies) as k (i, b) t t' ∧
      t.db.committed.idempotencyKeys (calls i).key = none

/-- Where a call that has got so far took effect, or will turn out to have. -/
def Past (as : List (ι × Statement)) (i : ι) : Stage → Prop
  | .absent => StillBut calls policies as i none ∧ ReadsNone calls policies as i
  | .replaying answer | .returned answer =>
    StillBut calls policies as i none ∧ ∃ k, TakesEffect calls policies as i k (.ok answer)
  | .committed answer | .unanswered answer =>
    ∃ k, TakesEffect calls policies as i k (.ok answer) ∧ StillBut calls policies as i (some k)
  | .raised error =>
    StillBut calls policies as i none ∧
      (error.message.isSome → ∃ k, TakesEffect calls policies as i k (.error error))
  | _ => StillBut calls policies as i none

end Past

/-- Nothing is seen of a call that is under way. -/
theorem Past.still {as : List (ι × Statement)} {i : ι} {stage : Stage}
    (h : Past calls policies as i stage) (hopen : stage.Open) :
    StillBut calls policies as i none := by
  cases stage with
  | absent => exact h.1
  | replaying answer => exact h.1
  | returned | committed | unanswered | raised => exact hopen.elim
  | _ => exact h

/-- Of a call whose row is in nothing is seen either. -/
theorem StillBut.wrote {as : List (ι × Statement)} {i : ι} (h : StillBut calls policies as i none)
    (w : Write) (answer : Answer) : Past calls policies as i (.wrote w answer) := by
  rcases Stage.wrote_cases w answer with ⟨_, _, hwrote⟩ | ⟨_, hwrote⟩ <;>
    · rw [hwrote]
      exact h

theorem StillBut.weaken {as : List (ι × Statement)} {i : ι}
    (h : StillBut calls policies as i none) (k : Option ℕ) : StillBut calls policies as i k :=
  fun n b t t' hat _ => h n b t t' hat (Option.some_ne_none n)

theorem StillBut.concat {as : List (ι × Statement)} {i : ι} {k : Option ℕ} {b : ι × Statement}
    (h : StillBut calls policies as i k)
    (hlast : ∀ s s', b.1 = i → (machine calls policies).run (start policies) as = some s →
      (machine calls policies).step s b = some s' → some as.length ≠ k →
        s'.db.committed = s.db.committed) :
    StillBut calls policies (as ++ [b]) i k := by
  intro n c t t' hat hne
  rcases Machine.stepAt_concat.mp hat with hat | ⟨rfl, rfl, hrun, hstep⟩
  · exact h n c t t' hat hne
  · exact hlast t t' rfl hrun hstep hne

theorem TakesEffect.concat {as : List (ι × Statement)} {i : ι} {k : ℕ}
    {given : Except Raised Answer} (h : TakesEffect calls policies as i k given)
    (b : ι × Statement) : TakesEffect calls policies (as ++ [b]) i k given := by
  rcases h with ⟨c, t, t', hat, hdoes⟩
  exact ⟨c, t, t', hat.concat, hdoes⟩

theorem ReadsNone.concat {as : List (ι × Statement)} {i : ι} (h : ReadsNone calls policies as i)
    (b : ι × Statement) : ReadsNone calls policies (as ++ [b]) i := by
  rcases h with ⟨hkey, k, c, t, t', hat, hnone⟩
  exact ⟨hkey, k, c, t, t', hat.concat, hnone⟩

/-- Another call's step leaves a call's past as it is. -/
theorem Past.other {as : List (ι × Statement)} {i : ι} {stage : Stage} {b : ι × Statement}
    (h : Past calls policies as i stage) (hne : b.1 ≠ i) :
    Past calls policies (as ++ [b]) i stage := by
  have hstill : ∀ {k}, StillBut calls policies as i k → StillBut calls policies (as ++ [b]) i k :=
    fun hs => hs.concat fun _ _ heq => absurd heq hne
  cases stage with
  | absent => exact ⟨hstill h.1, h.2.concat b⟩
  | replaying answer | returned answer =>
      rcases h with ⟨hs, k, heffect⟩
      exact ⟨hstill hs, k, heffect.concat b⟩
  | committed answer | unanswered answer =>
      rcases h with ⟨k, heffect, hs⟩
      exact ⟨k, heffect.concat b, hstill hs⟩
  | raised error =>
      refine ⟨hstill h.1, fun hown => ?_⟩
      rcases h.2 hown with ⟨k, heffect⟩
      exact ⟨k, heffect.concat b⟩
  | _ => exact hstill h

/-- The call that steps has its past one step on. -/
theorem Past.own {as : List (ι × Statement)} {s s' : State ι} {i : ι} {a : Statement}
    (hrun : (machine calls policies).run (start policies) as = some s)
    (hstep : step calls s (i, a) = some s') (h : Past calls policies as i (s.stage i)) :
    Past calls policies (as ++ [(i, a)]) i (s'.stage i) := by
  have hreach : (machine calls policies).Reachable s := ⟨start policies, as, rfl, hrun⟩
  have hinv := inv_of_reachable hreach
  have hat := Machine.stepAt_last (m := machine calls policies) hrun hstep
  have hpending : ∀ stage, s.stage i = stage → (stage = .connected ∨ stage = .undone ∨
      stage = .absent) → s.view i = s.db.committed := by
    intro stage hs hstage
    have hi := hinv.stage i
    rw [hs] at hi
    rcases hstage with rfl | rfl | rfl <;> exact view_eq hi
  have hstill : (s.stage i).Open → s'.db.committed = s.db.committed →
      StillBut calls policies (as ++ [(i, a)]) i none := by
    intro hopen hsame
    refine (h.still hopen).concat fun t t' _ ht ht' _ => ?_
    have heq := ht.symm.trans hrun
    rw [Option.some.injEq] at heq
    subst heq
    have heq' := ht'.symm.trans hstep
    rw [Option.some.injEq] at heq'
    exact heq' ▸ hsame
  -- A call that answers with what its key had recorded takes effect where it reads it.
  have hreplay : ∀ {remembered given}, (s.stage i = .connected ∨ s.stage i = .undone) →
      (s.view i).idempotencyKeys (calls i).key = some remembered →
      replayed remembered (calls i) = given → s'.db.committed = s.db.committed →
      TakesEffect calls policies (as ++ [(i, a)]) i as.length given := by
    intro remembered given hs hrow hr hsame
    have hview : s.view i = s.db.committed := by
      rcases hs with hs | hs
      · exact hpending _ hs (Or.inl rfl)
      · exact hpending _ hs (Or.inr (Or.inl rfl))
    rw [hview] at hrow
    refine ⟨a, s, s', hat, ?_⟩
    rw [hsame]
    exact does_of_replayed (storable_of_recorded hreach hrow) hrow hr
  have he := effect_of_step hstep
  have hopen : ∀ stage, s.stage i = stage → stage.Open → (s.stage i).Open := by
    intro stage hs ho
    rwa [hs]
  cases he with
  | connect hs =>
      rw [stage_goto]
      exact hstill (hopen _ hs trivial) rfl
  | absent hs hrow =>
      rw [hpending _ hs (Or.inl rfl)] at hrow
      have hkey := storable_of_step hstep hs (stage_goto _ _ _)
      rw [stage_goto]
      exact ⟨hstill (hopen _ hs trivial) rfl, hkey, _, a, s, _, hat, hrow⟩
  | @replay remembered answer hs hrow hr =>
      have ho : (s.stage i).Open := by
        rcases hs with hs | hs <;> exact hopen _ hs trivial
      rw [stage_goto]
      exact ⟨hstill ho rfl, _, hreplay hs hrow hr rfl⟩
  | locate hs _ _ =>
      rw [stage_locate]
      exact hstill (hopen _ hs trivial) (State.committed_locate _ _ _ _)
  | write hs _ _ _ =>
      rw [stage_insert]
      exact (hstill (hopen _ hs trivial) rfl).wrote _ _
  | references hs _ =>
      rw [stage_share]
      exact hstill (hopen _ hs trivial) rfl
  | insertKey hs _ _ _ =>
      rw [stage_insert]
      exact hstill (hopen _ hs trivial) rfl
  | collide hs =>
      rw [stage_goto]
      exact hstill (hopen _ hs trivial) rfl
  | undo hs =>
      rw [stage_close]
      exact hstill (hopen _ hs trivial) rfl
  | @commit answer stage hs hout =>
      rcases idempotent_of_keyed hinv hs with ⟨id, now, keyedAt, halone⟩
      have heffect : TakesEffect calls policies (as ++ [(i, a)]) i as.length (.ok answer) :=
        ⟨a, s, _, hat, .answer id now keyedAt halone⟩
      have hbut : StillBut calls policies (as ++ [(i, a)]) i (some as.length) :=
        ((h.still (hopen _ hs trivial)).weaken _).concat fun _ _ _ _ _ hne => absurd rfl hne
      rw [stage_commit]
      cases stage with
      | committed | unanswered =>
          cases hout
          exact ⟨_, heffect, hbut⟩
      | _ => cases hout
  | answer hs =>
      rw [hs] at h
      rcases h with ⟨_, k, heffect⟩
      rw [stage_close]
      exact ⟨hstill (hopen _ hs trivial) rfl, k, heffect.concat _⟩
  | @raise error ho =>
      rw [stage_close]
      refine ⟨hstill ho rfl, fun hown => ?_⟩
      rcases refusal_of_step hstep (stage_close _ _ _) hown with ⟨hs, remembered, hrow, hr⟩ |
        ⟨hs, hcheck⟩
      · exact ⟨_, hreplay hs hrow hr rfl⟩
      · -- It took effect where it read its key, and only now comes out with it.
        rw [hpending _ hs (Or.inr (Or.inr rfl))] at hcheck
        rw [hs] at h
        rcases h with ⟨hquiet, hkey, k, b, t, t', hread, hnone⟩
        rcases hread.split hrun with ⟨hbefore, hafter⟩
        have ht : (machine calls policies).Reachable t := ⟨start policies, as.take k, rfl, hbefore⟩
        refine ⟨k, b, t, t', hread.concat, ?_⟩
        rw [hquiet k b t t' hread (Option.some_ne_none k)]
        exact does_of_refused hkey hnone
          (refused_of_grown (grown_of_run ht hafter) (policies_of_run ht hafter) hcheck hown)

/-- Every call of a run has its past. -/
theorem past_of_run (as : List (ι × Statement)) (s : State ι)
    (hrun : (machine calls policies).run (start policies) as = some s) (i : ι) :
    Past calls policies as i (s.stage i) := by
  induction as using List.reverseRecOn generalizing s with
  | nil =>
      rw [Machine.run_nil, Option.some.injEq] at hrun
      subst hrun
      rintro n b t t' ⟨hnone, _⟩ _
      cases hnone
  | append_singleton as b ih =>
      rcases b with ⟨j, a⟩
      rcases Machine.run_append.mp hrun with ⟨t, ht, hlast⟩
      rcases Machine.run_cons_eq_some.mp hlast with ⟨t', hb, hnil⟩
      rw [Machine.run_nil, Option.some.injEq] at hnil
      subst hnil
      by_cases hij : i = j
      · subst hij
        exact (ih t ht).own ht hb
      · rw [stage_of_effect (effect_of_step hb) hij]
        exact (ih t ht).other fun heq => hij heq.symm

/-- Where a call of a run takes effect. -/
theorem exists_pointed {as : List (ι × Statement)} {s : State ι}
    (hrun : (machine calls policies).run (start policies) as = some s) (i : ι) :
    ∃ point, Machine.Pointed Does calls (fun s => s.db.committed) (fun s i => (s.stage i).given)
      (machine calls policies) (start policies) as s i point := by
  have hpast := past_of_run as s hrun i
  -- A call without a point has answered nothing, and one with a point that.
  have hnone : (s.stage i).given = none → StillBut calls policies as i none →
      ∃ point, Machine.Pointed Does calls (fun s => s.db.committed) (fun s i => (s.stage i).given)
        (machine calls policies) (start policies) as s i point := by
    intro hgiven hstill
    refine ⟨none, ?_, fun k b t t' hat _ => hstill k b t t' hat (Option.some_ne_none k),
      fun a => ?_⟩
    · rintro k a ⟨⟩
    · simp only [hgiven, reduceCtorEq, exists_false]
  have hsome : ∀ {k given}, (s.stage i).given = some given →
      TakesEffect calls policies as i k given → StillBut calls policies as i (some k) →
      ∃ point, Machine.Pointed Does calls (fun s => s.db.committed) (fun s i => (s.stage i).given)
        (machine calls policies) (start policies) as s i point := by
    rintro k given hgiven heffect hstill
    refine ⟨some (k, given), ?_, fun n b t t' hat hne => ?_, fun a => ?_⟩
    · rintro _ _ ⟨⟩
      exact heffect
    · refine hstill n b t t' hat ?_
      rintro ⟨⟩
      exact hne given rfl
    · rw [hgiven]
      constructor
      · rintro ⟨⟩
        exact ⟨k, rfl⟩
      · rintro ⟨_, ⟨⟩⟩
        rfl
  cases hs : s.stage i with
  | absent =>
      rw [hs] at hpast
      exact hnone (by rw [hs]; rfl) hpast.1
  | replaying answer =>
      rw [hs] at hpast
      exact hnone (by rw [hs]; rfl) hpast.1
  | returned answer =>
      rw [hs] at hpast
      rcases hpast with ⟨hstill, k, heffect⟩
      exact hsome (by rw [hs]; rfl) heffect (hstill.weaken _)
  | committed answer | unanswered answer =>
      rw [hs] at hpast
      rcases hpast with ⟨k, heffect, hstill⟩
      exact hsome (by rw [hs]; rfl) heffect hstill
  | raised error =>
      rw [hs] at hpast
      by_cases hown : error.message.isSome
      · rcases hpast.2 hown with ⟨k, heffect⟩
        exact hsome (by rw [hs]; exact if_pos hown) heffect (hpast.1.weaken _)
      · exact hnone (by rw [hs]; exact if_neg hown) hpast.1
  | waiting | connected | found | inserted | written | keyed | collided | undone =>
      rw [hs] at hpast
      exact hnone (by rw [hs]; rfl) hpast

/-- However any number of calls interleave, they look like calls done at once,
    one after the other: a serial history of them leaves what they have left,
    and gives each the answer, or the refusal, it was given; it has each call
    that was answered once, and no others; and a call that was over before
    another one began comes first in it. -/
theorem exists_history {as : List (ι × Statement)} {s : State ι}
    (hrun : (machine calls policies).run (start policies) as = some s) :
    ∃ history, Machine.Linearizes Does calls (fun s => s.db.committed)
      (fun s i => (s.stage i).given) (start policies) as s history :=
  Machine.exists_linearizes hrun (exists_pointed hrun)

end Runs

end CoreSim

end ClaimTriage
