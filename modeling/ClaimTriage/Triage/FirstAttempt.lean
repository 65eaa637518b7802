import ClaimTriage.Triage.Retry

/-!
# The First Attempt

What becomes of a run that nobody tried before, with everything reachable.

The systems take its claim in whatever the request says, because the contract is
all they check. The columns take less than the contract does: no text in them
holds the code point zero, nor half of a surrogate pair. What a request says in
such a text is refused by the driver, once the claim is taken in, so the attempt
raises and leaves a claim that no run and no entry is behind. Nothing else about
the request matters.

## Main definitions

* `Held`: The systems hold a policy.
* `Fresh`, `Room`: The identifier of a new claim is new, and the log has a place
  for one more entry.
* `FirstInv`: What an only attempt at a run has done, by how far it has got.
* `Evidenced`: Every claim taken in for a run has its run and its entry.

## Theorems

* `firstInv_of_run`: The invariant holds along an attempt that meets no failure.
* `returns_iff_of_run`: The first attempt returns, and leaves no claim without
  its evidence, exactly if the columns take what its request says.
-/

namespace ClaimTriage

open Theory Text Calendar

namespace Pipeline

namespace Place

/-- The claim is yet to be handed over. -/
def Early : Place → Prop
  | unstarted | started _ => True
  | _ => False

/-- The run is committed. -/
def Late : Place → Prop
  | recorded _ | returned _ => True
  | _ => False

end Place

/-- The systems hold a policy under a number. -/
def Held (policies : Str → Option Policy) (policyNumber : Str) : Prop :=
  Storable policyNumber ∧ (policies policyNumber).isSome

section Runs

variable {ι : Type} [DecidableEq ι] {requests : ι → RunRequest} {policies : Str → Option Policy}

/-- The identifier the systems make up for an execution's claim is no other
    claim's. -/
def Fresh (i : ι) (w : World ι) (act : ι × Action) : Prop :=
  act.1 = i →
    match act.2 with
    | .takeIn _ id _ _ => w.systems.claims id = none
    | _ => True

/-- The log has a place for an execution's entry. -/
def Room (i : ι) (w : World ι) (act : ι × Action) : Prop :=
  act.1 = i →
    match act.2 with
    | .insertEntry => w.store.db.committed.auditLog.length < 2147483647
    | _ => True

/-- Every claim that was taken in for a run has the run and an entry about it. -/
def Evidenced (w : World ι) (runId : Uuid) : Prop :=
  ∀ claimId, (runId, claimId) ∈ w.created →
    ∃ run ∈ w.store.db.committed.triageRuns, (run.runId = runId ∧ run.claimId = claimId) ∧
      ∃ entry ∈ w.store.db.committed.auditLog, Agrees run entry

/-- What an only attempt at a run has done, by how far it has got: a claim is
    taken in for it once it is past its call, and the run is committed once it
    is past its transaction, and not before. -/
structure FirstInv (requests : ι → RunRequest) (policies : Str → Option Policy) (i : ι)
    (w : World ι) : Prop where
  unclaimed : (w.place i).Early → w.systems.idempotencyKeys (claimKey (requests i).runId) = none
  claimed : ¬ (w.place i).Early → (requests i).runId ∈ w.created.map Prod.fst
  unrecorded : ¬ (w.place i).Late →
    ∀ run ∈ w.store.db.committed.triageRuns, run.runId ≠ (requests i).runId
  recordable : (w.place i).Late → Recordable (requests i)
  policies : w.systems.policies = policies

/-! ### What the others do -/

/-- A statement commits nothing but the run of an execution that is done with
    its append. -/
theorem runs_of_statement {w : World ι} (hevidence : EvidenceInv w) {j : ι}
    {a : TriageStore.Statement} {store : TriageStore.State ι}
    (hstore : TriageStore.Effect w.store j a store)
    (hcommit : a = .commit → ∃ run, w.place j = .appended run) :
    store.db.committed.triageRuns = w.store.db.committed.triageRuns ∨
      ∃ run, w.place j = .appended run ∧
        store.db.committed.triageRuns = w.store.db.committed.triageRuns ++ [run] := by
  rcases hstore.frame.2 with hsame | ⟨ha, _, rfl⟩
  · rw [hsame]
    exact Or.inl rfl
  · rcases hcommit ha with ⟨run, hs⟩
    have hj := hevidence.place j
    rw [hs] at hj
    rcases view_appended hj with ⟨_, _, hruns, _⟩
    refine Or.inr ⟨run, hs, ?_⟩
    rw [← hruns, TriageStore.State.view]
    simp only [TriageStore.State.commit, Database.committed_commit]

/-- Whatever an execution does, it commits nothing but its run. -/
theorem runs_of_effect {w w' : World ι} (hevidence : EvidenceInv w) {j : ι}
    (he : Effect requests w j w') :
    w'.store.db.committed.triageRuns = w.store.db.committed.triageRuns ∨
      ∃ run, w.place j = .appended run ∧
        w'.store.db.committed.triageRuns = w.store.db.committed.triageRuns ++ [run] := by
  cases he with
  | move | taken | told | crash => exact Or.inl rfl
  | sent hsends he _ | sentFailed hsends he _ =>
      refine runs_of_statement hevidence he ?_
      rintro rfl
      exact appended_of_commit hsends
  | commitLost hs he => exact runs_of_statement hevidence he fun _ => ⟨_, hs⟩
  | statementFails _ he | rollback _ he | crashOpen _ he =>
      exact runs_of_statement hevidence he nofun

/-- No execution touches the policies. -/
theorem policies_of_effect {w w' : World ι} {j : ι} (he : Effect requests w j w') :
    w'.systems.policies = w.systems.policies := by
  cases he with
  | taken _ hcall _ | told _ hcall _ =>
      rcases CoreSim.idempotent_eq_ok.mp hcall with ⟨_, hdone⟩
      exact hdone.policies
  | move | sent | sentFailed | commitLost | statementFails | rollback | crashOpen | crash => rfl

/-- A claim is taken in under a run's key by an execution of the run. -/
theorem claimKey_of_effect {w w' : World ι} {j : ι} (he : Effect requests w j w') {runId : Uuid}
    (hother : (requests j).runId ≠ runId) :
    w'.systems.idempotencyKeys (claimKey runId) = w.systems.idempotencyKeys (claimKey runId) := by
  cases he with
  | taken _ hcall _ =>
      rcases CoreSim.idempotent_eq_ok.mp hcall with ⟨_, hdone⟩
      exact hdone.idempotencyKeys fun heq => hother (claimKey_inj heq).symm
  | told _ hcall _ =>
      rcases CoreSim.idempotent_eq_ok.mp hcall with ⟨_, hdone⟩
      exact hdone.idempotencyKeys (claimKey_ne_statusKey _ _)
  | move | sent | sentFailed | commitLost | statementFails | rollback | crashOpen | crash => rfl

/-- The steps of another run's execution leave an only attempt where it is. -/
theorem FirstInv.other {w w' : World ι} (hw : (machine requests policies).Reachable w) {i j : ι}
    (h : FirstInv requests policies i w) (hji : j ≠ i)
    (hown : (requests j).runId ≠ (requests i).runId) (he : Effect requests w j w') :
    FirstInv requests policies i w' := by
  -- Another execution leaves this one where it is, and only adds to what is shared.
  have hplace := he.place fun heq => hji heq.symm
  refine ⟨?_, ?_, ?_, ?_, ?_⟩
  · rw [hplace, claimKey_of_effect he hown]
    exact h.unclaimed
  · rw [hplace]
    exact fun hlate => List.map_subset _ (kept_of_effect he).created (h.claimed hlate)
  · rw [hplace]
    intro hlate run hrun heq
    rcases runs_of_effect (evidence_of_reachable hw) he with hsame | ⟨other, hs, hmore⟩
    · exact h.unrecorded hlate run (hsame ▸ hrun) heq
    · rw [hmore] at hrun
      rcases List.mem_append.mp hrun with hbefore | hnew
      · exact h.unrecorded hlate run hbefore heq
      · -- What is committed is the other's run, which goes by another identifier.
        have hfor := (systems_of_reachable hw).places j
        rw [hs] at hfor
        rw [List.mem_singleton.mp hnew, hfor.1.runId] at heq
        exact hown heq
  · rw [hplace]
    exact h.recordable
  · rw [policies_of_effect he]
    exact h.policies

/-! ### What the attempt does -/

omit [DecidableEq ι] in
/-- The actions that have to find something are taken at one place each. -/
theorem place_of_step [DecidableEq ι] {w w' : World ι} {i : ι} {action : Action}
    (hstep : step requests w (i, action) = some w') :
    match action with
    | .takeIn _ _ _ _ => ∃ startedAt, w.place i = .started startedAt
    | .recordRun => ∃ run, w.place i = .recording run
    | .insertEntry => ∃ run, w.place i = .appending run
    | _ => True := by
  cases action with
  | takeIn answered id now keyedAt =>
      cases hs : w.place i with
      | started startedAt => exact ⟨startedAt, rfl⟩
      | _ => simp only [step, hs, Place.sends, reduceCtorEq] at hstep
  | recordRun =>
      cases hs : w.place i with
      | recording run => exact ⟨run, rfl⟩
      | _ => simp only [step, hs, Place.sends, reduceCtorEq] at hstep
  | insertEntry =>
      cases hs : w.place i with
      | appending run => exact ⟨run, rfl⟩
      | _ => simp only [step, hs, Place.sends, reduceCtorEq] at hstep
  | start | decide | connect | lockChain | readLast | commit | commitLost | statementFails
  | rollback | emit | fail | crash => trivial

omit [DecidableEq ι] in
/-- The systems take the claim of an only attempt in, whatever its request
    says. -/
theorem FirstInv.takes {w : World ι} {i : ι} (h : FirstInv requests policies i w)
    (hheld : Held policies (requests i).policyNumber) {startedAt : Moment} {id : Uuid}
    (hs : w.place i = .started startedAt) (hfresh : w.systems.claims id = none) :
    Takes w.systems (requests i) id := by
  have hearly : (w.place i).Early := by
    rw [hs]
    trivial
  rw [Takes, h.unclaimed hearly]
  refine ⟨hheld.1, ?_, hfresh⟩
  rw [h.policies]
  exact hheld.2

/-- Where the columns take what the request says and the log has a place, an
    only attempt finds whatever it has to. -/
theorem FirstInv.meets {w w' : World ι} {i : ι} (h : FirstInv requests policies i w)
    (hheld : Held policies (requests i).policyNumber) (hrecordable : Recordable (requests i))
    {action : Action} (hfresh : Fresh i w (i, action)) (hroom : Room i w (i, action))
    (hstep : step requests w (i, action) = some w') : Meets requests i w (i, action) := by
  intro _
  have hplace := place_of_step hstep
  cases action with
  | takeIn answered id now keyedAt =>
      rcases hplace with ⟨startedAt, hs⟩
      exact h.takes hheld hs (hfresh rfl)
  | recordRun =>
      rcases hplace with ⟨run, hs⟩
      refine ⟨hrecordable, h.unrecorded ?_⟩
      rw [hs]
      exact id
  | insertEntry => exact hroom rfl
  | start | decide | connect | lockChain | readLast | commit | commitLost | statementFails
  | rollback | emit | fail | crash => trivial

/-- An only attempt that meets no failure fails at one of its two inserts, if it
    does. -/
theorem FirstInv.fails {w w' : World ι} (hw : (machine requests policies).Reachable w) {i : ι}
    (h : FirstInv requests policies i w) (hheld : Held policies (requests i).policyNumber)
    {action : Action} (hclean : action.Clean) (hfresh : Fresh i w (i, action))
    (hstep : step requests w (i, action) = some w') (hfine : (w.place i).Fine)
    (hfailed : ¬ (w'.place i).Fine) :
    ∃ run, w.place i = .recording run ∨ w.place i = .appending run := by
  rw [fine_iff_of_step hw hclean hfine hstep] at hfailed
  have hplace := place_of_step hstep
  cases action with
  | takeIn answered id now keyedAt =>
      rcases hplace with ⟨startedAt, hs⟩
      exact absurd (fun _ => h.takes hheld hs (hfresh rfl)) hfailed
  | recordRun =>
      rcases hplace with ⟨run, hs⟩
      exact ⟨run, Or.inl hs⟩
  | insertEntry =>
      rcases hplace with ⟨run, hs⟩
      exact ⟨run, Or.inr hs⟩
  | start | decide | connect | lockChain | readLast | commit | commitLost | statementFails
  | rollback | emit | fail | crash => exact absurd (fun _ => trivial) hfailed

/-- Where an execution that has failed goes, it has failed still. -/
theorem Place.not_early_of_not_fine {place : Place} (h : ¬ place.Fine) :
    ¬ place.Early ∧ ¬ place.Late := by
  cases place with
  | unwinding | raised | crashed => exact ⟨id, id⟩
  | unstarted | started | takenIn | opening | recording | appending | appended | recorded
  | returned => exact absurd trivial h

/-- Between its call and its commit an attempt has a claim and no run. -/
theorem FirstInv.between {w w' : World ι} {i : ι} (h : FirstInv requests policies i w)
    (he : Effect requests w i w')
    (hruns : w'.store.db.committed.triageRuns = w.store.db.committed.triageRuns)
    (hbefore : ¬ (w.place i).Early ∧ ¬ (w.place i).Late)
    (hafter : ¬ (w'.place i).Early ∧ ¬ (w'.place i).Late) : FirstInv requests policies i w' := by
  refine ⟨fun hearly => absurd hearly hafter.1, fun _ => ?_, fun _ => ?_,
    fun hlate => absurd hlate hafter.2, ?_⟩
  · exact List.map_subset _ (kept_of_effect he).created (h.claimed hbefore.1)
  · rw [hruns]
    exact h.unrecorded hbefore.2
  · rw [policies_of_effect he]
    exact h.policies

/-- An action of an only attempt that meets no failure and does not fail. -/
theorem FirstInv.forward {w w' : World ι} (hw : (machine requests policies).Reachable w) {i : ι}
    (h : FirstInv requests policies i w) (he : Effect requests w i w')
    (hfine : (w'.place i).Fine) : FirstInv requests policies i w' := by
  have hpolicies : w'.systems.policies = policies := (policies_of_effect he).trans h.policies
  have hruns := runs_of_effect (evidence_of_reachable hw) he
  have hsystems := systems_of_reachable hw
  have hwhole := he
  cases he with
  | @move place hmoves =>
      simp only [World.goto, Function.update_self] at hfine
      obtain ⟨before, hs⟩ : ∃ before, w.place i = before := ⟨_, rfl⟩
      rw [hs] at hmoves
      cases hmoves with
      | start =>
          refine ⟨fun _ => h.unclaimed ?_, ?_, fun _ => h.unrecorded ?_, ?_, hpolicies⟩
          · rw [hs]
            trivial
          · simp only [World.goto, Function.update_self, Place.Early, not_true_eq_false,
              false_implies]
          · rw [hs]
            exact id
          · simp only [World.goto, Function.update_self, Place.Late, false_implies]
      | decide =>
          refine h.between hwhole rfl ?_ ?_
          · rw [hs]
            exact ⟨id, id⟩
          · simp only [World.goto, Function.update_self]
            exact ⟨id, id⟩
      | fail => exact hfine.elim
  | taken hs _ hplace =>
      rcases hplace with rfl | rfl
      · have hearly : (w.place i).Early := by
          rw [hs]
          trivial
        have hlate : ¬ (w.place i).Late := by
          rw [hs]
          exact id
        refine ⟨?_, fun _ => ?_, fun _ => h.unrecorded hlate, ?_, hpolicies⟩
        · simp only [World.taken, Function.update_self, Place.Early, false_implies]
        · -- Nobody took the claim in before, so it is taken in now.
          simp only [World.taken, h.unclaimed hearly, Option.isNone_none, if_true]
          exact List.mem_map.mpr
            ⟨_, List.mem_append_right _ (List.mem_singleton_self _), rfl⟩
        · simp only [World.taken, Function.update_self, Place.Late, false_implies]
      · simp only [World.taken, Function.update_self] at hfine
        exact hfine.elim
  | @told run now keyedAt claim systems place hs hcall hplace =>
      rcases hplace with rfl | rfl
      · have hearly : ¬ (w.place i).Early := by
          rw [hs]
          exact id
        have hlate : (w.place i).Late := by
          rw [hs]
          trivial
        refine ⟨?_, fun _ => h.claimed hearly, ?_, fun _ => h.recordable hlate, hpolicies⟩
        · simp only [World.told, Function.update_self, Place.Early, false_implies]
        · simp only [World.told, Function.update_self, Place.Late, not_true_eq_false,
            false_implies]
      · simp only [World.told, Function.update_self] at hfine
        exact hfine.elim
  | @sent action statement next store hsends hstore hnot =>
      have hsent := sent_of_effect ((evidence_of_reachable hw).place i) hsends hstore hnot
      have hcarries := hsystems.places i
      obtain ⟨before, hs⟩ : ∃ before, w.place i = before := ⟨_, rfl⟩
      rw [hs] at hsent hcarries
      cases hsent with
      | @commit run =>
          -- The run is committed, so the columns took what the request gives it.
          refine ⟨?_, fun _ => h.claimed ?_, ?_, fun _ => hcarries.2, hpolicies⟩
          · simp only [World.sent, Function.update_self, Place.Early, false_implies]
          · rw [hs]
            exact id
          · simp only [World.sent, Function.update_self, Place.Late, not_true_eq_false,
              false_implies]
      | connect | recordRun | lockChain | readLast | insertEntry =>
          refine h.between hwhole rfl ?_ ?_
          · rw [hs]
            exact ⟨id, id⟩
          · simp only [World.sent, Function.update_self]
            exact ⟨id, id⟩
  | sentFailed | commitLost | statementFails | rollback | crashOpen | crash =>
      simp only [World.sent, World.goto, Function.update_self] at hfine
      exact hfine.elim

/-- An action of an only attempt that meets no failure. -/
theorem FirstInv.own {w w' : World ι} (hw : (machine requests policies).Reachable w) {i : ι}
    (h : FirstInv requests policies i w) (hheld : Held policies (requests i).policyNumber)
    {action : Action} (hclean : action.Clean) (hfresh : Fresh i w (i, action))
    (hstep : step requests w (i, action) = some w') : FirstInv requests policies i w' := by
  have he := effect_of_step hstep
  by_cases hfine' : (w'.place i).Fine
  · exact h.forward hw he hfine'
  · -- It has failed before, or at one of its inserts, where it has a claim and no run.
    have hbefore : (¬ (w.place i).Early ∧ ¬ (w.place i).Late) ∧
        ∀ run, w.place i ≠ .appended run := by
      by_cases hfine : (w.place i).Fine
      · rcases h.fails hw hheld hclean hfresh hstep hfine hfine' with ⟨run, hs | hs⟩
        · rw [hs]
          exact ⟨⟨id, id⟩, nofun⟩
        · rw [hs]
          exact ⟨⟨id, id⟩, nofun⟩
      · refine ⟨Place.not_early_of_not_fine hfine, fun run hs => hfine ?_⟩
        rw [hs]
        trivial
    refine h.between he ?_ hbefore.1 (Place.not_early_of_not_fine hfine')
    rcases runs_of_effect (evidence_of_reachable hw) he with hsame | ⟨run, hs, _⟩
    · exact hsame
    · exact absurd hs (hbefore.2 run)

/-! ### A whole attempt -/

/-- A step of a run in which an only attempt meets no failure. -/
theorem FirstInv.step {w w' : World ι} (hw : (machine requests policies).Reachable w) {i : ι}
    (h : FirstInv requests policies i w)
    (hown : ∀ j, j ≠ i → (requests j).runId ≠ (requests i).runId)
    (hheld : Held policies (requests i).policyNumber) {act : ι × Action}
    (hclean : act.1 = i → act.2.Clean) (hfresh : Fresh i w act)
    (hstep : Pipeline.step requests w act = some w') : FirstInv requests policies i w' := by
  rcases act with ⟨j, action⟩
  by_cases hji : j = i
  · subst hji
    exact h.own hw hheld (hclean rfl) hfresh hstep
  · exact h.other hw hji (hown j hji) (effect_of_step hstep)

omit [DecidableEq ι] in
/-- Nobody tried anything yet. -/
theorem firstInv_start (i : ι) : FirstInv requests policies i (start policies) :=
  ⟨fun _ => rfl, fun hearly => absurd trivial hearly, fun _ => nofun, nofun, rfl⟩

/-- What an only attempt has done is in order along a run in which it meets no
    failure. -/
theorem firstInv_of_run {i : ι} (hown : ∀ j, j ≠ i → (requests j).runId ≠ (requests i).runId)
    (hheld : Held policies (requests i).policyNumber) {as : List (ι × Action)} {w : World ι}
    (hclean : ∀ act ∈ as, act.1 = i → act.2.Clean)
    (hfresh : (machine requests policies).Along (Fresh i) (start policies) as)
    (hrun : (machine requests policies).run (start policies) as = some w) :
    FirstInv requests policies i w := by
  refine (((Machine.along_of_forall hclean).and hfresh).induct
    (P := fun w => (machine requests policies).Reachable w ∧ FirstInv requests policies i w) ?_
      hrun ⟨Machine.reachable_init rfl, firstInv_start i⟩).2
  rintro w act w' ⟨hw, h⟩ ⟨hclean, hfresh⟩ hstep
  exact ⟨hw.step hstep, h.step hw hown hheld hclean hfresh hstep⟩

/-- Where the columns take what its request says and the log always has a place,
    an only attempt that meets no failure does not fail. -/
theorem fine_of_run {i : ι} (hown : ∀ j, j ≠ i → (requests j).runId ≠ (requests i).runId)
    (hheld : Held policies (requests i).policyNumber) (hrecordable : Recordable (requests i))
    {as : List (ι × Action)} {w : World ι} (hclean : ∀ act ∈ as, act.1 = i → act.2.Clean)
    (hfresh : (machine requests policies).Along (Fresh i) (start policies) as)
    (hroom : (machine requests policies).Along (Room i) (start policies) as)
    (hrun : (machine requests policies).run (start policies) as = some w) :
    (w.place i).Fine := by
  refine ((((Machine.along_of_forall hclean).and hfresh).and hroom).induct
    (P := fun w => ((machine requests policies).Reachable w ∧ FirstInv requests policies i w) ∧
      (w.place i).Fine) ?_ hrun ⟨⟨Machine.reachable_init rfl, firstInv_start i⟩, trivial⟩).2
  rintro w ⟨j, action⟩ w' ⟨⟨hw, h⟩, hfine⟩ ⟨⟨hclean, hfresh⟩, hroom⟩ hstep
  refine ⟨⟨hw.step hstep, h.step hw hown hheld hclean hfresh hstep⟩, ?_⟩
  by_cases hji : j = i
  · subst hji
    have hstep' : Pipeline.step requests w (j, action) = some w' := hstep
    exact (fine_iff_of_step hw (hclean rfl) hfine hstep').mpr
      (h.meets hheld hrecordable hfresh hroom hstep')
  · rw [(effect_of_machine hstep).place fun heq => hji heq.symm]
    exact hfine

/-- Only its first action leaves an execution's claim to be taken in, and it
    calls nobody. -/
theorem early_of_effect {w w' : World ι} {i : ι} (he : Effect requests w i w')
    (h : (w'.place i).Early) : (w.place i).Early ∧ w'.systems = w.systems := by
  cases he with
  | @move place hmoves =>
      simp only [World.goto, Function.update_self] at h
      refine ⟨?_, rfl⟩
      generalize w.place i = before at hmoves
      cases hmoves with
      | start => trivial
      | decide | fail => exact h.elim
  | taken _ _ hplace =>
      simp only [World.taken, Function.update_self] at h
      rcases hplace with rfl | rfl <;> exact h.elim
  | told _ _ hplace =>
      simp only [World.told, Function.update_self] at h
      rcases hplace with rfl | rfl <;> exact h.elim
  | sent hsends =>
      simp only [World.sent, Function.update_self] at h
      unfold Place.sends at hsends
      split at hsends <;> cases hsends <;> exact h.elim
  | sentFailed | commitLost | statementFails | rollback | crashOpen | crash =>
      simp only [World.sent, World.goto, Function.update_self] at h
      exact h.elim

/-- A claim is taken in under a new identifier where it is taken in under one
    that is new while it is yet to be taken in. -/
theorem fresh_of_under {i : ι} {id : Uuid} {as : List (ι × Action)} {w w' : World ι}
    (has : ∀ act ∈ as, act.1 = i ∧ act.2.Clean ∧ act.2.Under id)
    (hid : (w.place i).Early → w.systems.claims id = none)
    (hrun : (machine requests policies).run w as = some w') :
    (machine requests policies).Along (Fresh i) w as := by
  rintro pre ⟨j, action⟩ post t rfl hpre hji
  have hmine : (machine requests policies).Along (fun _ act => act.1 = i) w pre :=
    Machine.along_of_forall fun act hact => (has act (List.mem_append_left _ hact)).1
  have hunder := (has (j, action) (List.mem_append_right _ List.mem_cons_self)).2.2
  -- Until its claim is taken in, the systems stay as they were, without the identifier.
  have hnew : (t.place i).Early → t.systems.claims id = none := by
    refine hmine.induct (P := fun t => (t.place i).Early → t.systems.claims id = none) ?_ hpre hid
    rintro t ⟨j, action⟩ t' h rfl hstep hearly
    rcases early_of_effect (effect_of_machine hstep) hearly with ⟨hbefore, hsystems⟩
    rw [hsystems]
    exact h hbefore
  rcases Machine.run_append.mp hrun with ⟨t₁, ht₁, hrest⟩
  rw [hpre, Option.some.injEq] at ht₁
  subst ht₁
  rcases Machine.run_cons_eq_some.mp hrest with ⟨t', hstep, _⟩
  have hstep' : Pipeline.step requests t (j, action) = some t' := hstep
  cases action with
  | takeIn answered other now keyedAt =>
      rcases place_of_step hstep' with ⟨startedAt, hs⟩
      have hother : other = id := hunder
      refine (congrArg t.systems.claims hother).trans (hnew ?_)
      rw [← hji, hs]
      trivial
  | start | decide | connect | recordRun | lockChain | readLast | insertEntry | commit
  | commitLost | statementFails | rollback | emit | fail | crash => trivial

/-- A run whose execution has returned has its evidence. -/
theorem evidenced_of_returned {w : World ι} (hw : (machine requests policies).Reachable w) {i : ι}
    {result : RunResult} (hreturned : w.place i = .returned result) :
    Evidenced w (requests i).runId := by
  have hsystems := systems_of_reachable hw
  have hplace := hsystems.places i
  rw [hreturned] at hplace
  rcases hplace with ⟨run, hrun, hfor, _, _⟩
  rcases exists_entry (evidence_of_reachable hw).paired hrun with ⟨entry, hentry, hagrees⟩
  intro claimId hmem
  have hsame : ((requests i).runId, run.claimId) = ((requests i).runId, claimId) :=
    List.inj_on_of_nodup_map hsystems.runIds hfor.1.1 hmem rfl
  exact ⟨run, hrun, ⟨hfor.runId, congrArg Prod.snd hsame⟩, entry, hentry, hagrees⟩

/-- An attempt at a run nobody tried before, whatever its request says, with the
    policy held, nothing of it failing, and any number of executions of other
    runs doing and meeting anything meanwhile. It comes to an end where nobody
    is in its way; and at its end it has returned exactly if the columns take
    the texts its request gives its run and the log has a place for its entry,
    and only then does the claim it left in the systems have its run and its
    entry. -/
theorem returns_iff_of_run {i : ι} (hown : ∀ j, j ≠ i → (requests j).runId ≠ (requests i).runId)
    (hheld : Held policies (requests i).policyNumber) {as : List (ι × Action)} {w : World ι}
    (hclean : ∀ act ∈ as, act.1 = i → act.2.Clean)
    (hfresh : (machine requests policies).Along (Fresh i) (start policies) as)
    (hrun : (machine requests policies).run (start policies) as = some w) :
    ((∀ j, j ≠ i → ¬ (w.store.session j).Open) → ∀ id, w.systems.claims id = none →
      ∃ bs w', (∀ act ∈ bs, act.1 = i ∧ act.2.Clean) ∧
        (machine requests policies).Along (Fresh i) w bs ∧
        (machine requests policies).run w bs = some w' ∧ (w'.place i).Over) ∧
    ((w.place i).Over →
      ((∃ result, w.place i = .returned result) ↔
        Recordable (requests i) ∧
          (machine requests policies).Along (Room i) (start policies) as) ∧
      (Evidenced w (requests i).runId ↔
        Recordable (requests i) ∧
          (machine requests policies).Along (Room i) (start policies) as)) := by
  have hw : (machine requests policies).Reachable w := ⟨start policies, as, rfl, hrun⟩
  have hfirst := firstInv_of_run hown hheld hclean hfresh hrun
  constructor
  · intro hothers id hid
    rcases exists_attempt hw hothers id with ⟨bs, w', hbs, hrest, hover⟩
    exact ⟨bs, w', fun act hact => ⟨(hbs act hact).1, (hbs act hact).2.1⟩,
      fresh_of_under hbs (fun _ => hid) hrest, hrest, hover⟩
  · intro hover
    by_cases hfine : (w.place i).Fine
    · -- It has returned: its run is committed, so the columns took it, and nothing failed.
      have hreturned : ∃ result, w.place i = .returned result := by
        revert hover hfine
        cases w.place i with
        | returned result => exact fun _ _ => ⟨result, rfl⟩
        | raised | crashed => exact fun _ hfine => hfine.elim
        | unstarted | started | takenIn | opening | recording | appending | appended | recorded
        | unwinding => exact fun hover _ => hover.elim
      rcases hreturned with ⟨result, hs⟩
      have hlate : (w.place i).Late := by
        rw [hs]
        trivial
      have hmeets := (fine_iff_of_run (Machine.reachable_init rfl) trivial hclean hrun).mp hfine
      have hroom : (machine requests policies).Along (Room i) (start policies) as := by
        rintro pre ⟨j, action⟩ post t hsplit hpre hji
        have hmeet := hmeets pre (j, action) post t hsplit hpre hji
        cases action with
        | insertEntry => exact hmeet
        | start | takeIn | decide | connect | recordRun | lockChain | readLast | commit
        | commitLost | statementFails | rollback | emit | fail | crash => trivial
      have hcondition := And.intro (hfirst.recordable hlate) hroom
      exact ⟨iff_of_true ⟨result, hs⟩ hcondition,
        iff_of_true (evidenced_of_returned hw hs) hcondition⟩
    · -- It has failed: its claim is there and its run is not.
      have hcondition : ¬ (Recordable (requests i) ∧
          (machine requests policies).Along (Room i) (start policies) as) := fun hc =>
        hfine (fine_of_run hown hheld hc.1 hclean hfresh hc.2 hrun)
      rcases Place.not_early_of_not_fine hfine with ⟨hearly, hlate⟩
      refine ⟨iff_of_false ?_ hcondition, iff_of_false ?_ hcondition⟩
      · rintro ⟨result, hs⟩
        rw [hs] at hfine
        exact hfine trivial
      · intro hevidenced
        rcases List.mem_map.mp (hfirst.claimed hearly) with ⟨⟨runId, claimId⟩, hmem, hid⟩
        simp only at hid
        rw [hid] at hmem
        rcases hevidenced claimId hmem with ⟨run, hmemRun, ⟨hrunId, _⟩, _⟩
        exact hfirst.unrecorded hlate run hmemRun hrunId

set_option maxRecDepth 100000 in
theorem returns_iff_of_run_throughout :
    ∃ w : World Unit, (machine (fun _ => claimed) CoreSim.Tables.seeded.policies).run
        (start CoreSim.Tables.seeded.policies) throughout = some w ∧
      (∃ result, w.place () = .returned result) ∧ Evidenced w claimed.runId := by
  have hrun : (((machine (fun _ => claimed) CoreSim.Tables.seeded.policies).run
      (start CoreSim.Tables.seeded.policies) throughout).bind fun w =>
        match w.place () with
        | .returned result => some result.status
        | _ => none) = some .triaged := by decide +kernel
  rcases Option.bind_eq_some_iff.mp hrun with ⟨w, hw, hplace⟩
  have hreturned : ∃ result, w.place () = .returned result := by
    revert hplace
    cases w.place () with
    | returned result => exact fun _ => ⟨result, rfl⟩
    | _ => exact nofun
  have hheld : Held CoreSim.Tables.seeded.policies claimed.policyNumber :=
    ⟨by decide +kernel, by decide +kernel⟩
  have hunder : ∀ act ∈ throughout,
      act.1 = () ∧ act.2.Clean ∧ act.2.Under ⟨1, by decide⟩ := by decide +kernel
  have hover : (w.place ()).Over := by
    rcases hreturned with ⟨result, hs⟩
    rw [hs]
    trivial
  have hboth := (returns_iff_of_run (i := ()) (fun j hj => absurd rfl hj) hheld
    (fun act hact _ => (hunder act hact).2.1) (fresh_of_under hunder (fun _ => rfl) hw) hw).2 hover
  exact ⟨w, hw, hreturned, hboth.2.mpr (hboth.1.mp hreturned)⟩

/-- A claim whose arm has a name with the code point zero in it, which the
    contract's text takes and a text column does not. -/
def unrecordable : RunRequest where
  toClaimSubmission := CoreSim.submitted
  experiment := [ofChar '\x00']
  variant := text "control"
  runId := ⟨7, Uuid.seven_valid⟩
  guardVerdicts := []

/-- Its only execution, to its end. -/
def toDefect : List (Unit × Action) :=
  let now : Moment := ⟨.third, .noon⟩
  [.start now, .takeIn true ⟨1, Uuid.one_valid⟩ now now, .decide (text "triaged") none now,
    .connect, .recordRun, .rollback].map fun action => ((), action)

set_option maxRecDepth 100000 in
/-- The first attempt does not return, though its policy is held and everything
    is reachable, and leaves a claim in the systems with no run and no entry. -/
theorem not_returns_unrecordable :
    ∃ w : World Unit, Held CoreSim.Tables.seeded.policies unrecordable.policyNumber ∧
      (∀ act ∈ toDefect, act.2.Clean ∧ act.2.Under ⟨1, by decide⟩) ∧
      (machine (fun _ => unrecordable) CoreSim.Tables.seeded.policies).run
        (start CoreSim.Tables.seeded.policies) toDefect = some w ∧
      (w.place () = .raised .defect ∧ (w.systems.claims ⟨1, by decide⟩).isSome ∧
        w.created = [(unrecordable.runId, ⟨1, by decide⟩)] ∧
        w.store.db.committed.triageRuns = [] ∧ w.store.db.committed.auditLog = []) := by
  have hrun : (((machine (fun _ : Unit => unrecordable) CoreSim.Tables.seeded.policies).run
      (start CoreSim.Tables.seeded.policies) toDefect).map fun w =>
        decide (w.place () = .raised .defect ∧ (w.systems.claims ⟨1, by decide⟩).isSome ∧
          w.created = [(unrecordable.runId, ⟨1, by decide⟩)] ∧
          w.store.db.committed.triageRuns.length = 0 ∧
            w.store.db.committed.auditLog.length = 0)) = some true := by decide +kernel
  rcases Option.map_eq_some_iff.mp hrun with ⟨w, hw, hend⟩
  rcases of_decide_eq_true hend with ⟨hplace, hclaim, hcreated, hruns, hlog⟩
  exact ⟨w, ⟨by decide +kernel, by decide +kernel⟩, by decide +kernel, hw, hplace, hclaim,
    hcreated, List.eq_nil_of_length_eq_zero hruns, List.eq_nil_of_length_eq_zero hlog⟩

end Runs

end Pipeline

end ClaimTriage
