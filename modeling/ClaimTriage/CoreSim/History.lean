import ClaimTriage.CoreSim.Writes
import Mathlib.Data.Set.Card

/-!
# A Claim's History

What any number of concurrent writes make of a claim's history.

The history is one JSON column, read and written back whole, so two reports on
one claim would lose a transition if one of them read before the other
committed. The row's lock is what keeps them apart, and a commit is a write of
the call alone: it appends the status it reports to the history as it stands, or
starts a history, or leaves it as it is. The history's length then counts the
reports that were committed, each under a key of its own.

## Main definitions

* `Call.reportsOn`: The call reports a status of the claim.
* `Lively`: What a history says of its claim.
* `HistoryInv`: Every history is lively and counts the reports on its claim.

## Theorems

* `claims_keyed`: What a commit makes of a claim.
* `history_of_run`: Histories start with the first status, end with the
  present one, count the reports, and only grow.
-/

namespace ClaimTriage

open Theory Text Calendar

namespace CoreSim

/-- The call reports a status of the claim. -/
def Call.reportsOn (claimId : Uuid) : Call → Bool
  | recordStatus id _ => id = claimId
  | _ => false

/-- A history starts with the status a claim is received at, and ends with the
    one it has. -/
structure Lively (claim : Claim) : Prop where
  first : claim.statusHistory.head?.map (·.status) = some .received
  last : claim.statusHistory.getLast?.map (·.status) = some claim.status

theorem lively_received (submission : ClaimSubmission) (id : Uuid) (now : Moment) :
    Lively (received submission id now) := ⟨rfl, rfl⟩

/-- A history with one more status starts as it did and ends with that. -/
theorem Lively.transitioned {row : Claim} (h : Lively row) (claim : Claim)
    (hsame : claim.statusHistory = row.statusHistory) (status : ClaimStatus) (now : Moment) :
    Lively (withStatus (transitioned claim status now) row) := by
  refine ⟨?_, ?_⟩
  · have hfirst := h.first
    simp only [withStatus, CoreSim.transitioned, hsame]
    cases hhistory : row.statusHistory with
    | nil => exact absurd hhistory row.statusHistoryValid
    | cons t rest =>
        rw [hhistory] at hfirst
        exact hfirst
  · simp only [withStatus, CoreSim.transitioned, List.getLast?_append, List.getLast?_singleton,
      Option.some_or, Option.map_some]

section Runs

variable {ι : Type} {calls : ι → Request}

/-- What a call's commit makes of a claim: nothing, the claim it received, or
    the claim with the status it reported. -/
theorem claims_keyed {s : State ι} (h : Inv calls s) {i : ι} {answer : Answer}
    (hs : s.stage i = .keyed answer) (id : Uuid) :
    ((s.view i).claims id = s.db.committed.claims id ∧ (calls i).call.reportsOn id = false) ∨
      (s.db.committed.claims id = none ∧ (calls i).call.reportsOn id = false ∧
        ∃ submission now, (s.view i).claims id = some (received submission id now)) ∨
      ((calls i).call.reportsOn id = true ∧ ∃ row status now,
        s.db.committed.claims id = some row ∧
          (s.view i).claims id = some (withStatus (transitioned (stored row) status now) row)) := by
  have hkeyed := h.stage i
  rw [hs] at hkeyed
  rcases hkeyed with ⟨w, k, hpending, ⟨draft, new, now, ⟨hfinds, _⟩, hwrite, _, haccepts⟩,
    _, rfl, _⟩
  have hview : (s.view i).claims id = (s.db.committed.apply w).claims id := by
    rw [view_keyed hpending]
    rfl
  have hw : w = (draft.write new now).1 := by rw [hwrite]
  rw [hview, hw]
  rw [hw] at haccepts
  generalize hcall : (calls i).call = call at hfinds
  cases hfinds with
  | @create submission _ _ =>
      by_cases hid : id = new
      · subst hid
        exact Or.inr (Or.inl ⟨haccepts, rfl, submission, now, Function.update_self _ _ _⟩)
      · exact Or.inl ⟨Function.update_of_ne hid _ _, rfl⟩
  | @recordStatus claimId status row hrow =>
      by_cases hid : id = claimId
      · subst hid
        refine Or.inr (Or.inr ⟨decide_eq_true rfl, row, status, now, hrow, ?_⟩)
        simp only [Draft.write, Tables.apply, Function.update_self, hrow, Option.map_some]
      · exact Or.inl ⟨Function.update_of_ne hid _ _, decide_eq_false fun heq => hid heq.symm⟩
  | attachDocument _ => exact Or.inl ⟨rfl, rfl⟩
  | recordParty _ => exact Or.inl ⟨rfl, rfl⟩

/-- A claim that is there stays, and its history only grows at the end. -/
def Grown (t u : Tables) : Prop :=
  ∀ id row, t.claims id = some row →
    ∃ row', u.claims id = some row' ∧ row.statusHistory <+: row'.statusHistory

theorem grown_refl (t : Tables) : Grown t t :=
  fun _ row hrow => ⟨row, hrow, List.prefix_refl _⟩

theorem Grown.trans {t u v : Tables} (h : Grown t u) (h' : Grown u v) : Grown t v := by
  intro id row hrow
  rcases h id row hrow with ⟨row', hrow', hprefix⟩
  rcases h' id row' hrow' with ⟨row'', hrow'', hprefix'⟩
  exact ⟨row'', hrow'', hprefix.trans hprefix'⟩

theorem grown_of_keyed {s : State ι} (h : Inv calls s) {i : ι} {answer : Answer}
    (hs : s.stage i = .keyed answer) : Grown s.db.committed (s.view i) := by
  intro id row hrow
  rcases claims_keyed h hs id with ⟨hsame, _⟩ | ⟨hnone, _⟩ | ⟨_, before, status, now, hbefore, hnew⟩
  · exact ⟨row, hsame.trans hrow, List.prefix_refl _⟩
  · rw [hrow] at hnone
    cases hnone
  · rw [hrow, Option.some.injEq] at hbefore
    subst hbefore
    exact ⟨_, hnew, List.prefix_append _ _⟩

/-- The committed reports on a claim. -/
def reports (calls : ι → Request) (s : State ι) (id : Uuid) : List ι :=
  s.commits.filter fun i => (calls i).call.reportsOn id

variable [DecidableEq ι]

/-- A report that is committed is one more. -/
theorem reports_commit (s : State ι) (i : ι) (stage : Stage) (id : Uuid) :
    reports calls (s.commit i stage) id = reports calls s id ++
      if (calls i).call.reportsOn id then [i] else [] := by
  simp only [reports, State.commit, List.filter_append, List.filter_singleton]
  cases (calls i).call.reportsOn id <;> rfl

/-- Every history is lively and counts the reports on its claim, and there is no
    report on a claim that is not there. -/
def HistoryInv (calls : ι → Request) (s : State ι) : Prop :=
  ∀ id, (s.db.committed.claims id = none → reports calls s id = []) ∧
    ∀ row, s.db.committed.claims id = some row →
      Lively row ∧ row.statusHistory.length = 1 + (reports calls s id).length

/-- A commit keeps the histories: a report is one more transition. -/
theorem HistoryInv.commit {s : State ι} (hinv : Inv calls s) (h : HistoryInv calls s) {i : ι}
    {stage : Stage} {answer : Answer} (hs : s.stage i = .keyed answer) :
    HistoryInv calls (s.commit i stage) := by
  intro id
  have hreports : reports calls (s.commit i stage) id = _ := reports_commit s i stage id
  have hcommitted : (s.commit i stage).db.committed.claims id = (s.view i).claims id := rfl
  rw [hcommitted]
  rcases claims_keyed hinv hs id with ⟨hsame, hno⟩ | ⟨hnone, hno, submission, now, hnew⟩ |
    ⟨hreport, row, status, now, hrow, hnew⟩
  · rw [hreports, hsame, hno]
    simp only [Bool.false_eq_true, if_false, List.append_nil]
    exact h id
  · -- The claim is new, and has no reports yet.
    rw [hreports, hnew, hno, (h id).1 hnone]
    refine ⟨nofun, ?_⟩
    rintro _ ⟨⟩
    exact ⟨lively_received submission id now, rfl⟩
  · rcases (h id).2 row hrow with ⟨hlively, hlength⟩
    rw [hreports, hnew, hreport, if_pos rfl]
    refine ⟨nofun, ?_⟩
    rintro _ ⟨⟩
    refine ⟨hlively.transitioned (stored row) rfl status now, ?_⟩
    simp only [withStatus, transitioned, stored, List.length_append, List.length_singleton, hlength]
    omega

/-- The histories are right wherever the store gets to. -/
theorem historyInv_of_reachable {policies : Str → Option Policy} {s : State ι}
    (h : (machine calls policies).Reachable s) : HistoryInv calls s := by
  have hboth : Inv calls s ∧ HistoryInv calls s := by
    refine h.induct (P := fun s => Inv calls s ∧ HistoryInv calls s) ?_ ?_
    · rintro s rfl
      refine ⟨inv_of_reachable (Machine.reachable_init (m := machine calls policies) rfl), ?_⟩
      exact fun id => ⟨fun _ => rfl, fun row hrow => by cases hrow⟩
    · rintro s ⟨i, a⟩ s' ⟨hinv, hs⟩ hstep
      have he := effect_of_step hstep
      refine ⟨hinv.effect he, ?_⟩
      cases he with
      | commit hkeyed _ => exact HistoryInv.commit hinv hs hkeyed
      | locate =>
          intro id
          rw [State.committed_locate]
          exact hs id
      | connect | absent | replay | write | references | insertKey => exact hs
      | collide | undo | answer | raise => exact hs
  exact hboth.2

/-- Along any run histories only grow. -/
theorem grown_of_run {policies : Str → Option Policy} {s t : State ι}
    (h : (machine calls policies).Reachable s) {bs : List (ι × Statement)}
    (hrun : (machine calls policies).run s bs = some t) :
    Grown s.db.committed t.db.committed := by
  refine h.run_rel (R := fun s t : State ι => Grown s.db.committed t.db.committed)
    (fun s => grown_refl _) (fun s t u hst htu => Grown.trans hst htu) ?_ hrun
  rintro s ⟨i, a⟩ s' hs hstep
  have hinv := inv_of_reachable hs
  have he := effect_of_step hstep
  rcases commits_of_effect hinv he with ⟨hsame, _⟩ | ⟨hne, _⟩
  · rw [hsame]
    exact grown_refl _
  · rcases keyed_of_effect he hne with ⟨answer, hkeyed, hview⟩
    rw [hview]
    exact grown_of_keyed hinv hkeyed

/-- The keys of the reports on a claim that had an effect in a run are as many
    as there are committed reports: no two of them have one key. -/
theorem ncard_reports {policies : Str → Option Policy} {as : List (ι × Statement)} {s : State ι}
    (hrun : (machine calls policies).run (start policies) as = some s) (id : Uuid) :
    Set.ncard {key | ∃ i, (machine calls policies).Changes (fun s => s.db.committed)
        (fun a => a.1 = i) (start policies) as ∧ (calls i).call.reportsOn id ∧
          (calls i).key = key} = (reports calls s id).length := by
  have hinv : Inv calls s := inv_of_reachable ⟨start policies, as, rfl, hrun⟩
  have hnodup : ((reports calls s id).map fun i => (calls i).key).Nodup :=
    hinv.keys.nodup.sublist (List.filter_sublist.map _)
  have hset : {key | ∃ i, (machine calls policies).Changes (fun s => s.db.committed)
      (fun a => a.1 = i) (start policies) as ∧ (calls i).call.reportsOn id ∧
        (calls i).key = key} =
      ((((reports calls s id).map fun i => (calls i).key).toFinset : Finset Str) : Set Str) := by
    ext key
    simp only [changes_iff hrun, Set.mem_ofPred_eq, List.coe_toFinset, List.mem_map, reports,
      List.mem_filter, and_assoc]
  rw [hset, Set.ncard_coe_finset, List.toFinset_card_of_nodup hnodup, List.length_map]

theorem read_eq_ok {t : Tables} {id : Uuid} {claim : Claim} :
    read t id = .ok claim ↔ ∃ row, t.claims id = some row ∧ stored row = claim := by
  unfold read
  cases t.claims id with
  | none => simp only [claimOf, reduceCtorEq, false_and, exists_false]
  | some row => simp only [claimOf_some, Except.ok.injEq, Option.some.injEq, exists_eq_left']

/-- Wherever any number of interleaved calls get to, a claim's history starts
    with `received` and ends with the status the claim has, and there is one
    transition more in it than there are keys a report on the claim took effect
    under; and wherever the calls go on to, it is what the history there starts
    with. -/
theorem history_of_run {policies : Str → Option Policy} {as bs : List (ι × Statement)}
    {s t : State ι} (hs : (machine calls policies).run (start policies) as = some s)
    (ht : (machine calls policies).run s bs = some t) (id : Uuid) (claim : Claim)
    (hread : read s.db.committed id = .ok claim) :
    claim.statusHistory ≠ [] ∧
      claim.statusHistory.head?.map (·.status) = some .received ∧
      claim.statusHistory.getLast?.map (·.status) = some claim.status ∧
      claim.statusHistory.length = 1 +
        Set.ncard {key | ∃ i, (machine calls policies).Changes (fun s => s.db.committed)
          (fun a => a.1 = i) (start policies) as ∧ (calls i).call.reportsOn id ∧
            (calls i).key = key} ∧
      ∃ later, read t.db.committed id = .ok later ∧
        claim.statusHistory <+: later.statusHistory := by
  have hreachable : (machine calls policies).Reachable s := ⟨start policies, as, rfl, hs⟩
  rcases read_eq_ok.mp hread with ⟨row, hrow, rfl⟩
  rcases (historyInv_of_reachable hreachable id).2 row hrow with ⟨hlively, hlength⟩
  rcases grown_of_run hreachable ht id row hrow with ⟨row', hrow', hprefix⟩
  refine ⟨row.statusHistoryValid, hlively.first, hlively.last, ?_, stored row',
    read_eq_ok.mpr ⟨row', hrow', rfl⟩, hprefix⟩
  rw [ncard_reports hs id]
  exact hlength

/-- Two reports on one claim at once: the second waits for the row the first
    one locked, and appends to what it left. -/
def twoReports : List (Fin 3 × Statement) :=
  let now : Moment := ⟨.third, .noon⟩
  [(0, .connect), (0, .remember), (0, .check), (0, .write ⟨1, Uuid.one_valid⟩ now),
    (0, .insertKey now), (0, .commit), (1, .connect), (2, .connect), (1, .remember),
    (2, .remember), (1, .check), (1, .write ⟨2, Uuid.two_valid⟩ now), (1, .insertKey now),
    (1, .commit), (2, .check), (2, .write ⟨3, by decide⟩ now), (2, .insertKey now), (2, .commit)]

/-- The calls of that run: a claim is received, and triaged twice. -/
def reporting : Fin 3 → Request
  | 0 => ⟨.create submitted, text "a"⟩
  | 1 => ⟨.recordStatus ⟨1, Uuid.one_valid⟩ .triaged, text "b"⟩
  | 2 => ⟨.recordStatus ⟨1, Uuid.one_valid⟩ .triaged, text "c"⟩

set_option maxRecDepth 100000 in
theorem history_of_run_twoReports :
    ∃ claim : Claim, claim.statusHistory.length = 3 ∧
      claim.statusHistory.head?.map (·.status) = some .received ∧
      claim.statusHistory.getLast?.map (·.status) = some claim.status := by
  have hrun : (((machine reporting Tables.seeded.policies).run (start Tables.seeded.policies)
      twoReports).map fun s => (s.db.committed.claims ⟨1, by decide⟩).map
        fun row => row.statusHistory.length) = some (some 3) := by decide +kernel
  rcases Option.map_eq_some_iff.mp hrun with ⟨s, hs, hrow⟩
  rcases Option.map_eq_some_iff.mp hrow with ⟨row, hrow, hlength⟩
  have hread : read s.db.committed ⟨1, by decide⟩ = .ok (stored row) :=
    read_eq_ok.mpr ⟨row, hrow, rfl⟩
  rcases history_of_run hs (Machine.run_nil s) _ _ hread with ⟨_, hfirst, hlast, _⟩
  exact ⟨stored row, hlength, hfirst, hlast⟩

end Runs

end CoreSim

end ClaimTriage
