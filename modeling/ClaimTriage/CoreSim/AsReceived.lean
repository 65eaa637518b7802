import ClaimTriage.CoreSim.History

/-!
# A Claim as It Was Received

What a claim is read as once it is created, and before its status is reported.

A submission's claim is answered from memory and inserted, and reading it goes
through the columns it was inserted in. All of them give back what they were
given but one: an amount is a number of two decimal places to its column, and
is spelled with two places wherever it is read (`stored`). What creating a claim
answers, and what its key answers a retry with, still has the amount as it was
spelled.

The row is there from the commit on. Any number of other calls may have
committed between that and the read; of those only a report on the claim
changes its row.

## Main definitions

* `CreatedInv`: A created claim is held as it was answered, or was reported on.
* `ReadAsAnswered`: A claim is read, and its creation retried, as it was
  answered.

## Theorems

* `createdInv_of_reachable`: The invariant holds wherever the store gets to.
* `readAsAnswered_iff`: A claim is read as it was answered exactly if its amount
  was spelled with two decimal places.
-/

namespace ClaimTriage

open Theory Text Calendar

namespace CoreSim

section Runs

variable {ι : Type} {calls : ι → Request}

/-- What a submission's call answers is the claim it received, and that is the
    row there is until the claim is reported on. -/
def CreatedInv (calls : ι → Request) (s : State ι) : Prop :=
  ∀ i submission answer, (calls i).call = .create submission →
    (s.stage i).outcome = some answer → ∃ id now row,
      answer = .claim (received submission id now) ∧ s.db.committed.claims id = some row ∧
        (reports calls s id = [] → row = received submission id now)

/-- What a submission's call leaves is the row of the claim it answers with. -/
theorem claims_create {s : State ι} (h : Inv calls s) {i : ι} {answer : Answer}
    {submission : ClaimSubmission} (hcall : (calls i).call = .create submission)
    (hs : s.stage i = .keyed answer) :
    ∃ id now, answer = .claim (received submission id now) ∧
      (s.view i).claims id = some (received submission id now) := by
  have hkeyed := h.stage i
  rw [hs] at hkeyed
  rcases hkeyed with ⟨w, k, hpending, ⟨draft, id, now, ⟨hfinds, _⟩, hwrite, _, _⟩, _, rfl, _⟩
  rw [hcall] at hfinds
  cases hfinds with
  | create _ _ =>
      cases hwrite
      refine ⟨id, now, rfl, ?_⟩
      rw [view_keyed hpending]
      exact Function.update_self _ _ _

/-- What a call returns under a key is what the call that had an effect under it
    answers. -/
theorem value_eq_outcome {s : State ι} (h : Inv calls s) {i j : ι} {given answer : Answer}
    (hkey : (calls j).key = (calls i).key) (hgiven : (s.stage j).value = some given)
    (hanswer : (s.stage i).outcome = some answer) : given = answer := by
  have hi : i ∈ s.commits := (h.took i).mpr (by rw [hanswer]; rfl)
  -- Whatever was returned for a key, some request with that key committed it.
  have heffective : ∃ k ∈ s.commits, (calls k).key = (calls j).key ∧
      (s.stage k).outcome = some given := by
    have hstage := h.stage j
    cases hs : s.stage j with
    | returned replayed =>
        rw [hs] at hstage hgiven
        cases hgiven
        rcases hstage.2 with ⟨k, hk, hkj, _, houtcome⟩
        exact ⟨k, hk, hkj, houtcome⟩
    | committed written =>
        rw [hs] at hgiven
        cases hgiven
        have hout : (s.stage j).outcome = some given := by rw [hs]; rfl
        exact ⟨j, (h.took j).mpr (by rw [hout]; rfl), rfl, hout⟩
    | _ =>
        rw [hs] at hgiven
        cases hgiven
  rcases heffective with ⟨k, hk, hkj, houtcome⟩
  have hki : k = i := List.inj_on_of_nodup_map h.keys.nodup hk hi (hkj.trans hkey)
  rw [hki, hanswer] at houtcome
  exact (Option.some.inj houtcome).symm

/-- What the claim is read as is what its creation answered, and what every call
    under the creation's key is answered. -/
def ReadAsAnswered (calls : ι → Request) (s : State ι) (i : ι) (claim : Claim) : Prop :=
  (read s.db.committed claim.claimId).map Claim.wire.encode = .ok (Claim.wire.encode claim) ∧
    ∀ j answer, (calls j).key = (calls i).key → (s.stage j).value = some answer →
      (read s.db.committed claim.claimId).map Claim.wire.encode = .ok answer.modelDump

/-- A claim nothing reported on is read as the columns store what was answered. -/
theorem read_created {s : State ι} (h : CreatedInv calls s) {i : ι} {submission : ClaimSubmission}
    (hcall : (calls i).call = .create submission) {claim : Claim}
    (hanswer : (s.stage i).outcome = some (.claim claim))
    (hnone : ∀ j ∈ s.commits, (calls j).call.reportsOn claim.claimId = false) :
    claim.claimAmountEur = submission.claimAmountEur ∧
      read s.db.committed claim.claimId = .ok (stored claim) := by
  rcases h i submission _ hcall hanswer with ⟨id, now, row, hclaim, hrow, hfirst⟩
  cases hclaim
  have hreports : reports calls s id = [] :=
    List.filter_eq_nil_iff.mpr fun j hj => (hnone j hj).symm ▸ Bool.false_ne_true
  refine ⟨rfl, read_eq_ok.mpr ⟨row, hrow, ?_⟩⟩
  rw [hfirst hreports]

variable [DecidableEq ι]

/-- A commit keeps what was created: the claim is the call's own, or another's
    that it leaves alone or reports on. -/
theorem CreatedInv.commit {s : State ι} (hinv : Inv calls s) (h : CreatedInv calls s) {i : ι}
    {stage : Stage} {answer : Answer} (hs : s.stage i = .keyed answer)
    (hout : stage.outcome = some answer) : CreatedInv calls (s.commit i stage) := by
  intro j submission given hcall hgiven
  by_cases hji : j = i
  · -- The creation that commits leaves its row as it answered it, and nothing is reported yet.
    subst hji
    have hsame : answer = given := by
      simpa only [State.commit, Function.update_self, hout, Option.some.injEq] using hgiven
    subst hsame
    rcases claims_create hinv hcall hs with ⟨id, now, hanswer, hrow⟩
    exact ⟨id, now, _, hanswer, hrow, fun _ => rfl⟩
  · have hbefore : (s.stage j).outcome = some given := by
      simpa only [State.commit, Function.update_of_ne hji] using hgiven
    rcases h j submission given hcall hbefore with ⟨id, now, row, hanswer, hrow, hfirst⟩
    -- The row of another creation is left alone, unless what commits is a report on it.
    have hreports : reports calls (s.commit i stage) id = _ := reports_commit s i stage id
    rcases claims_keyed hinv hs id with ⟨hsame, hno⟩ | ⟨hnone, _⟩ |
      ⟨hreport, before, status, now', _, hnew⟩
    · refine ⟨id, now, row, hanswer, hsame.trans hrow, fun hnil => hfirst ?_⟩
      rw [hreports] at hnil
      exact (List.append_eq_nil_iff.mp hnil).1
    · rw [hrow] at hnone
      cases hnone
    · -- A report on the claim is one of the reports there are now.
      refine ⟨id, now, _, hanswer, hnew, fun hnil => ?_⟩
      rw [hreports, if_pos hreport] at hnil
      cases (List.append_eq_nil_iff.mp hnil).2

/-- A step that commits nothing moves one call to a stage without an outcome. -/
theorem CreatedInv.move {s s' : State ι} (h : CreatedInv calls s) {i : ι}
    (hcommitted : s'.db.committed = s.db.committed) (hcommits : s'.commits = s.commits)
    {stage : Stage} (hstage : s'.stage = Function.update s.stage i stage)
    (hnone : stage.outcome = none) : CreatedInv calls s' := by
  intro j submission answer hcall hanswer
  have hji : j ≠ i := by
    rintro rfl
    rw [hstage, Function.update_self, hnone] at hanswer
    cases hanswer
  rw [hstage, Function.update_of_ne hji] at hanswer
  simp only [reports, hcommitted, hcommits]
  exact h j submission answer hcall hanswer

/-- What was created is right wherever the store gets to. -/
theorem createdInv_of_reachable {policies : Str → Option Policy} {s : State ι}
    (h : (machine calls policies).Reachable s) : CreatedInv calls s := by
  have hboth : Inv calls s ∧ CreatedInv calls s := by
    refine h.induct (P := fun s => Inv calls s ∧ CreatedInv calls s) ?_ ?_
    · rintro s rfl
      refine ⟨inv_of_reachable (Machine.reachable_init (m := machine calls policies) rfl), ?_⟩
      exact fun i submission answer _ hanswer => by cases hanswer
    · rintro s ⟨i, a⟩ s' ⟨hinv, hs⟩ hstep
      have he := effect_of_step hstep
      refine ⟨hinv.effect he, ?_⟩
      cases he with
      | commit hkeyed hout => exact hs.commit hinv hkeyed hout
      | locate => exact hs.move (State.committed_locate _ _ _ _) rfl rfl rfl
      | write => exact hs.move rfl rfl rfl (Stage.outcome_wrote _ _)
      | connect | absent | replay | references | insertKey | collide | undo | answer | raise =>
          exact hs.move rfl rfl rfl rfl
  exact hboth.2

theorem stored_eq_self_iff {claim : Claim} :
    stored claim = claim ↔ claim.claimAmountEur.value.exponent = -2 := by
  rw [← Amount.stored_eq_self_iff]
  exact ⟨fun h => congrArg Claim.claimAmountEur h, fun h => Claim.ext rfl rfl rfl h rfl rfl⟩

/-- Wherever any number of interleaved calls get to, a claim that was created and
    not yet reported on is read as its creation answered, and as a retry of it is
    answered, exactly if its amount was spelled with two decimal places. -/
theorem readAsAnswered_iff {policies : Str → Option Policy} {as : List (ι × Statement)}
    {s : State ι} (hrun : (machine calls policies).run (start policies) as = some s) {i : ι}
    {submission : ClaimSubmission} (hcall : (calls i).call = .create submission) {claim : Claim}
    (hanswer : (s.stage i).outcome = some (.claim claim))
    (hnone : ∀ j ∈ s.commits, (calls j).call.reportsOn claim.claimId = false) :
    ReadAsAnswered calls s i claim ↔ submission.claimAmountEur.value.exponent = -2 := by
  have hreachable : (machine calls policies).Reachable s := ⟨start policies, as, rfl, hrun⟩
  rcases read_created (createdInv_of_reachable hreachable) hcall hanswer hnone with
    ⟨hamount, hread⟩
  rw [← hamount, ← stored_eq_self_iff]
  constructor
  · rintro ⟨hsame, _⟩
    rw [hread] at hsame
    exact Claim.wire.encode_inj (Except.ok.inj hsame)
  · intro hstored
    have hsame : (read s.db.committed claim.claimId).map Claim.wire.encode =
        .ok (Claim.wire.encode claim) := by
      rw [hread, hstored]
      rfl
    refine ⟨hsame, fun j answer hkey hvalue => ?_⟩
    rw [value_eq_outcome (inv_of_reachable hreachable) hkey hvalue hanswer]
    exact hsame

/-- One submission, from its connection to its commit. -/
def oneCreate : List (Unit × Statement) :=
  let now : Moment := ⟨.third, .noon⟩
  [((), .connect), ((), .remember), ((), .check), ((), .write ⟨1, Uuid.one_valid⟩ now),
    ((), .insertKey now), ((), .commit)]

/-- A submission whose amount is spelled with two decimal places. -/
def spelled : ClaimSubmission :=
  { submitted with claimAmountEur := ⟨⟨10000, -2⟩, by decide, by decide, by decide⟩ }

/-- A run of one submission answers with a claim. -/
theorem exists_oneCreate (submission : ClaimSubmission)
    (hrun : (((machine (fun _ : Unit => ⟨.create submission, text "k"⟩)
      Tables.seeded.policies).run (start Tables.seeded.policies) oneCreate).map
        fun s => (s.commits, (s.stage ()).outcome.isSome)) = some ([()], true)) :
    ∃ s claim, (machine (fun _ : Unit => ⟨.create submission, text "k"⟩)
        Tables.seeded.policies).run (start Tables.seeded.policies) oneCreate = some s ∧
      (s.stage ()).outcome = some (.claim claim) ∧ s.commits = [()] := by
  rcases Option.map_eq_some_iff.mp hrun with ⟨s, hs, hcommits⟩
  rcases Prod.mk.inj hcommits with ⟨hone, hsome⟩
  rcases Option.isSome_iff_exists.mp hsome with ⟨answer, hanswer⟩
  rcases createdInv_of_reachable ⟨_, _, rfl, hs⟩ () submission answer rfl hanswer with
    ⟨id, now, _, rfl, _⟩
  exact ⟨s, _, hs, hanswer, hone⟩

set_option maxRecDepth 100000 in
/-- A claim of `100.00` is read as it was answered. -/
theorem readAsAnswered_spelled :
    ∃ s claim, (s.stage ()).outcome = some (.claim claim) ∧
      ReadAsAnswered (fun _ : Unit => ⟨.create spelled, text "k"⟩) s () claim := by
  rcases exists_oneCreate spelled (by decide +kernel) with ⟨s, claim, hs, hanswer, _⟩
  exact ⟨s, claim, hanswer, (readAsAnswered_iff hs rfl hanswer fun _ _ => rfl).mpr rfl⟩

set_option maxRecDepth 100000 in
/-- A claim of `100` is answered with `100` and read with `100.00`. -/
theorem not_readAsAnswered_submitted :
    ∃ s claim, (machine (fun _ : Unit => ⟨.create submitted, text "k"⟩)
        Tables.seeded.policies).run (start Tables.seeded.policies) oneCreate = some s ∧
      (s.stage ()).outcome = some (.claim claim) ∧
      ¬ ReadAsAnswered (fun _ : Unit => ⟨.create submitted, text "k"⟩) s () claim := by
  rcases exists_oneCreate submitted (by decide +kernel) with ⟨s, claim, hs, hanswer, _⟩
  refine ⟨s, claim, hs, hanswer, fun h => ?_⟩
  rcases read_created (createdInv_of_reachable ⟨_, _, rfl, hs⟩) rfl hanswer fun _ _ => rfl with
    ⟨hamount, hread⟩
  have hsame := h.1
  rw [hread] at hsame
  have hexponent := stored_eq_self_iff.mp (Claim.wire.encode_inj (Except.ok.inj hsame))
  rw [hamount] at hexponent
  cases hexponent

end Runs

end CoreSim

end ClaimTriage
