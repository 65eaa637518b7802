import ClaimTriage.CoreSim.Writes
import ClaimTriage.Theory.Ordered
import Mathlib.Data.Prod.Lex

/-!
# The Parties of a Claim

What is read of a claim's parties while any number of calls record them.

A reading lists the parties by the time each was recorded at, and by identifier
where two have the same. That time is taken before the party's transaction
commits, and the identifier is a random one; so a party may be committed, and
first be read, after one that is listed behind it. The list does not lose
anybody, and it is only added to at its end exactly along the runs that commit
the parties of a claim in the order they are listed in (`parties_iff_of_run`).

## Main definitions

* `listedBy`: What parties are listed by.
* `readParties`: What a reading answers.
* `Answers`: What a reading answers in a run.
* `PartiesKept`: Every reading of a run begins with every earlier one.
* `InOrder`: A step commits no party behind which one is listed already.

## Theorems

* `parties_of_step`: What a step adds to the parties of a claim.
* `parties_iff_of_run`: Along which runs every reading begins with every
  earlier one.
-/

namespace ClaimTriage

open Theory Text Calendar Ordered

namespace CoreSim

/-- A moment as the microseconds it stands at. -/
def micros (m : Moment) : Int :=
  m.date.toordinal * dayMicros + m.clock.micros

/-- What parties are listed by: the time they were recorded at, then the
    identifier. -/
def listedBy (party : ClaimParty) : Lex (Int × Nat) :=
  toLex (micros party.recordedAt, party.partyId.int)

/-- The parties recorded against a claim, as they were committed. -/
def partiesOf (t : Tables) (claimId : Uuid) : List ClaimParty :=
  t.claimParties.filter fun party => party.claimId = claimId

/-- The parties of a claim, oldest first. -/
def selectParties (t : Tables) (claimId : Uuid) : List ClaimParty :=
  sortBy listedBy (partiesOf t claimId)

/-- Every party a claim carries. The two statements see what is committed when each
    is sent. -/
def readParties (looked selected : Tables) (claimId : Uuid) : Except Raised (List ClaimParty) :=
  (requireClaim looked claimId).map fun _ => selectParties selected claimId

section Runs

variable {ι : Type}

/-- What a call's commit makes of the parties: one more if it records one, of a claim
    that is held. -/
theorem parties_keyed {calls : ι → Request} {s : State ι} (h : Inv calls s) {i : ι}
    {answer : Answer} (hs : s.stage i = .keyed answer) :
    (∃ party, answer = .party party ∧ (s.db.committed.claims party.claimId).isSome ∧
      (s.view i).claimParties = s.db.committed.claimParties ++ [party]) ∨
    ((∀ party, answer ≠ .party party) ∧
      (s.view i).claimParties = s.db.committed.claimParties) := by
  have hkeyed := h.stage i
  rw [hs] at hkeyed
  rcases hkeyed with ⟨w, k, hpending, ⟨draft, id, now, ⟨hfinds, _⟩, hwrite, _, _⟩, _, rfl, _⟩
  have hview : (s.view i).claimParties = (s.db.committed.apply w).claimParties := by
    rw [view_keyed hpending]
    rfl
  have hw : w = (draft.write id now).1 := by rw [hwrite]
  have hanswer : answer = (draft.write id now).2 := by rw [hwrite]
  rw [hview, hw, hanswer]
  generalize (calls i).call = call at hfinds
  cases hfinds with
  | create | recordStatus | attachDocument => exact Or.inr ⟨fun _ => nofun, rfl⟩
  | recordParty hclaim => exact Or.inl ⟨_, rfl, hclaim, rfl⟩

variable [DecidableEq ι] (calls : ι → Request) (policies : Str → Option Policy)

/-- A reading that looks the claim up after the first of these steps and selects its
    parties after both answers with this list. -/
def Answers (before between : List (ι × Statement)) (claimId : Uuid) (parties : List ClaimParty) :
    Prop :=
  ∃ s t, (machine calls policies).run (start policies) before = some s ∧
    (machine calls policies).run s between = some t ∧
      readParties s.db.committed t.db.committed claimId = .ok parties

/-- Every reading of a claim's parties in a run is what every later one begins
    with. -/
def PartiesKept (as : List (ι × Statement)) : Prop :=
  ∀ claimId before between before' between' parties parties',
    before ++ between <+: before' ++ between' → before' ++ between' <+: as →
    Answers calls policies before between claimId parties →
    Answers calls policies before' between' claimId parties' → parties <+: parties'

/-- A statement that ends a transaction with what it wrote. -/
def Statement.Commits (a : Statement) : Prop :=
  a = .commit ∨ a = .commitLost

/-- If a step commits a party, none of the claim's that is committed is listed behind
    it. -/
def InOrder (s : State ι) (act : ι × Statement) : Prop :=
  ∀ party, s.stage act.1 = .keyed (.party party) → act.2.Commits →
    ∀ earlier ∈ partiesOf s.db.committed party.claimId, listedBy earlier ≤ listedBy party

variable {calls} {policies}

/-- A step that changes what is committed commits its call. -/
theorem commits_of_step {s s' : State ι} {i : ι} {a : Statement} {answer : Answer}
    (hs : s.stage i = .keyed answer) (h : step calls s (i, a) = some s')
    (hne : s'.db.committed ≠ s.db.committed) : a.Commits := by
  cases a with
  | commit => exact Or.inl rfl
  | commitLost => exact Or.inr rfl
  | fail =>
      simp only [step] at h
      split at h <;> cases h
      exact absurd rfl hne
  | connect | remember | check | write | references | insertKey | undo | rememberAgain =>
      simp only [step, hs] at h
      cases h

theorem step_of_commits {s s' : State ι} {i : ι} {a : Statement} {answer : Answer}
    (hs : s.stage i = .keyed answer) (ha : a.Commits) (h : step calls s (i, a) = some s') :
    s'.db.committed = s.view i := by
  rcases ha with rfl | rfl
  · simp only [step, hs] at h
    cases h
    rfl
  · simp only [step, hs] at h
    cases h
    rfl

/-- A step adds to the parties no more than the one its call records, which it
    commits. -/
theorem parties_of_step {s s' : State ι} {act : ι × Statement} (h : Inv calls s)
    (hstep : step calls s act = some s') :
    s'.db.committed.claimParties = s.db.committed.claimParties ∨
      ∃ party, s.stage act.1 = .keyed (.party party) ∧ act.2.Commits ∧
        s'.db.committed.claimParties = s.db.committed.claimParties ++ [party] := by
  rcases act with ⟨i, a⟩
  have he := effect_of_step hstep
  rcases commits_of_effect h he with ⟨hsame, _⟩ | ⟨hne, _⟩
  · exact Or.inl (by rw [hsame])
  · rcases keyed_of_effect he hne with ⟨answer, hkeyed, hview⟩
    rcases parties_keyed h hkeyed with ⟨party, rfl, _, hparties⟩ | ⟨_, hparties⟩
    · exact Or.inr ⟨party, hkeyed, commits_of_step hkeyed hstep hne, by rw [hview, hparties]⟩
    · exact Or.inl (by rw [hview, hparties])

/-- A step in order leaves what is read of a claim's parties at the front of what is
    read after it. -/
theorem selectParties_of_step {s s' : State ι} {act : ι × Statement} (h : Inv calls s)
    (hstep : step calls s act = some s') (horder : InOrder s act) (claimId : Uuid) :
    selectParties s.db.committed claimId <+: selectParties s'.db.committed claimId := by
  unfold selectParties partiesOf
  rcases parties_of_step h hstep with hsame | ⟨party, hkeyed, hcommits, hparties⟩
  · rw [hsame]
  · rw [hparties, List.filter_append]
    by_cases hclaim : party.claimId = claimId
    · subst hclaim
      simp only [List.filter_cons, decide_true, if_true, List.filter_nil]
      exact sortBy_prefix_concat_iff.mpr (horder party hkeyed hcommits)
    · simp only [List.filter_cons, hclaim, decide_false, Bool.false_eq_true, if_false,
        List.filter_nil, List.append_nil]
      exact List.prefix_refl _

theorem readParties_eq_ok {looked selected : Tables} {claimId : Uuid} {parties : List ClaimParty} :
    readParties looked selected claimId = .ok parties ↔
      (looked.claims claimId).isSome ∧ selectParties selected claimId = parties := by
  unfold readParties requireClaim
  by_cases h : (looked.claims claimId).isSome
  · rw [if_pos h]
    exact ⟨fun heq => ⟨h, Except.ok.inj heq⟩, fun heq => congrArg _ heq.2⟩
  · rw [if_neg h]
    exact ⟨nofun, fun heq => absurd heq.1 h⟩

/-- Along steps in order what is read of a claim's parties stays at the front of what
    is read. -/
theorem selectParties_of_along {s t : State ι} {as : List (ι × Statement)}
    (hs : (machine calls policies).Reachable s)
    (horder : (machine calls policies).Along InOrder s as)
    (hrun : (machine calls policies).run s as = some t) (claimId : Uuid) :
    selectParties s.db.committed claimId <+: selectParties t.db.committed claimId := by
  have hboth : (machine calls policies).Reachable t ∧
      selectParties s.db.committed claimId <+: selectParties t.db.committed claimId := by
    refine horder.induct (P := fun t => (machine calls policies).Reachable t ∧
      selectParties s.db.committed claimId <+: selectParties t.db.committed claimId) ?_ hrun
      ⟨hs, List.prefix_refl _⟩
    rintro u act u' ⟨hreachable, hprefix⟩ hact hstep
    exact ⟨hreachable.step hstep,
      hprefix.trans (selectParties_of_step (inv_of_reachable hreachable) hstep hact claimId)⟩
  exact hboth.2

/-- In any run of any calls, every reading of a claim's parties begins with every
    earlier one exactly if every step that commits a party commits one that is
    listed behind all of the claim's. -/
theorem parties_iff_of_run {as : List (ι × Statement)} {s : State ι}
    (hrun : (machine calls policies).run (start policies) as = some s) :
    PartiesKept calls policies as ↔
      (machine calls policies).Along InOrder (start policies) as := by
  have hinit : (machine calls policies).Reachable (start policies) := Machine.reachable_init rfl
  constructor
  · rintro hkept pre ⟨i, a⟩ post t rfl hpre party hkeyed hcommits
    -- A reading before the commit, and one after it.
    rcases Machine.run_append.mp hrun with ⟨t', ht', hrest⟩
    rw [hpre, Option.some.injEq] at ht'
    subst ht'
    rcases Machine.run_cons_eq_some.mp hrest with ⟨u, hu, _⟩
    have hview := step_of_commits hkeyed hcommits hu
    rcases parties_keyed (inv_of_reachable (hinit.run hpre)) hkeyed with
      ⟨_, hparty, hclaim, hparties⟩ | ⟨hother, _⟩
    · cases hparty
      have hprefix := hkept party.claimId pre [] pre [(i, a)] _ _
        (by rw [List.append_nil]; exact List.prefix_append _ _)
        (List.prefix_append_right_inj pre |>.mpr (List.prefix_append [(i, a)] post))
        ⟨t, t, hpre, rfl, readParties_eq_ok.mpr ⟨hclaim, rfl⟩⟩
        ⟨t, u, hpre, Machine.run_of_step hu, readParties_eq_ok.mpr ⟨hclaim, rfl⟩⟩
      unfold selectParties partiesOf at hprefix
      rw [hview, hparties, List.filter_append] at hprefix
      simp only [List.filter_cons, decide_true, if_true, List.filter_nil] at hprefix
      exact sortBy_prefix_concat_iff.mp hprefix
    · exact absurd rfl (hother party)
  · rintro horder claimId before between before' between' parties parties' ⟨mid, hmid⟩ ⟨post, hpost⟩
      ⟨s₁, t₁, hs₁, ht₁, hparties⟩ ⟨s₂, t₂, hs₂, ht₂, hparties'⟩
    rcases readParties_eq_ok.mp hparties with ⟨_, rfl⟩
    rcases readParties_eq_ok.mp hparties' with ⟨_, rfl⟩
    have hfirst : (machine calls policies).run (start policies) (before ++ between) = some t₁ :=
      Machine.run_append.mpr ⟨s₁, hs₁, ht₁⟩
    have hsecond : (machine calls policies).run (start policies) (before' ++ between') = some t₂ :=
      Machine.run_append.mpr ⟨s₂, hs₂, ht₂⟩
    rw [← hmid] at hsecond
    rcases Machine.run_append.mp hsecond with ⟨t, ht, hlater⟩
    rw [hfirst, Option.some.injEq] at ht
    subst ht
    refine selectParties_of_along (hinit.run hfirst) (fun pre act rest u hsplit hpre => ?_) hlater
      claimId
    refine horder (before ++ between ++ pre) act (rest ++ post) u ?_
      (Machine.run_append.mpr ⟨t₁, hfirst, hpre⟩)
    rw [← hpost, ← hmid, hsplit]
    simp only [List.append_assoc, List.cons_append]

/-- When the statements of a run read the clock. -/
def readings (as : List (ι × Statement)) : List Int :=
  as.filterMap fun act =>
    match act.2 with
    | .write _ now | .insertKey now => some (micros now)
    | _ => none

/-- The calls of the run below: a claim is received, and two parties of it are
    recorded. -/
def recording : Fin 3 → Request
  | 0 => ⟨.create submitted, text "a"⟩
  | 1 => ⟨.recordParty ⟨1, Uuid.one_valid⟩ ⟨.claimant⟩, text "b"⟩
  | 2 => ⟨.recordParty ⟨1, Uuid.one_valid⟩ ⟨.driver⟩, text "c"⟩

/-- A second of that day. -/
def second (n : Nat) (h : n < 60) : Moment :=
  ⟨.third, ⟨12, 0, n, 0, Clock.noon.hour_valid, Clock.noon.minute_valid, h,
    Clock.noon.microsecond_valid⟩⟩

/-- The party recorded second is committed first; both share the claim's row. -/
def overtaken : List (Fin 3 × Statement) :=
  [(0, .connect), (0, .remember), (0, .check),
    (0, .write ⟨1, Uuid.one_valid⟩ (second 0 Clock.noon.second_valid)),
    (0, .insertKey (second 0 Clock.noon.second_valid)), (0, .commit), (1, .connect), (2, .connect),
    (1, .remember), (2, .remember), (1, .check), (2, .check),
    (1, .write ⟨5, by decide⟩ (second 1 (by decide))), (1, .references),
    (2, .write ⟨6, by decide⟩ (second 2 (by decide))), (2, .references),
    (2, .insertKey (second 2 (by decide))), (2, .commit),
    (1, .insertKey (second 2 (by decide))), (1, .commit)]

/-- The identifiers a reading lists, after so many of the run's steps. -/
def listed (n : Nat) : Option (Option (List Nat)) :=
  ((machine recording Tables.seeded.policies).run (start Tables.seeded.policies)
    (overtaken.take n)).map fun s =>
      (readParties s.db.committed s.db.committed ⟨1, Uuid.one_valid⟩).toOption.map
        (·.map (·.partyId.int))

set_option maxRecDepth 100000 in
theorem parties_iff_of_run_overtaken :
    PartiesKept recording Tables.seeded.policies overtaken ↔
      (machine recording Tables.seeded.policies).Along InOrder (start Tables.seeded.policies)
        overtaken := by
  have hrun : ((machine recording Tables.seeded.policies).run (start Tables.seeded.policies)
      overtaken).isSome = true := by decide +kernel
  rcases Option.isSome_iff_exists.mp hrun with ⟨s, hs⟩
  exact parties_iff_of_run hs

/-- A reading that lists these. -/
theorem answers_of_listed {n : Nat} {ids : List Nat} (h : listed n = some (some ids)) :
    ∃ parties, parties.map (·.partyId.int) = ids ∧
      Answers recording Tables.seeded.policies (overtaken.take n) [] ⟨1, by decide⟩ parties := by
  rcases Option.map_eq_some_iff.mp h with ⟨s, hs, hread⟩
  rcases Option.map_eq_some_iff.mp hread with ⟨parties, hparties, rfl⟩
  refine ⟨parties, rfl, s, s, hs, rfl, ?_⟩
  cases heq : readParties s.db.committed s.db.committed ⟨1, by decide⟩ with
  | error error =>
      rw [heq] at hparties
      cases hparties
  | ok found =>
      rw [heq] at hparties
      exact congrArg Except.ok (Option.some.inj hparties)

set_option maxRecDepth 100000 in
/-- The party whose time is the later one is read alone, and then behind the
    other, though the clock never went back. -/
theorem not_partiesKept_overtaken :
    (readings overtaken).Pairwise (· ≤ ·) ∧
      ((machine recording Tables.seeded.policies).run (start Tables.seeded.policies)
        overtaken).isSome ∧
      ¬ PartiesKept recording Tables.seeded.policies overtaken := by
  refine ⟨by decide +kernel, by decide +kernel, fun hkept => ?_⟩
  have hfirst : listed 18 = some (some [6]) := by decide +kernel
  have hsecond : listed 20 = some (some [5, 6]) := by decide +kernel
  rcases answers_of_listed hfirst with ⟨parties, hids, hparties⟩
  rcases answers_of_listed hsecond with ⟨parties', hids', hparties'⟩
  have hprefix := hkept _ _ _ _ _ _ _
    (by simpa only [List.append_nil] using List.take_prefix_take_left (by decide : 18 ≤ 20))
    (by simpa only [List.append_nil] using List.take_prefix 20 overtaken) hparties hparties'
  have hmap := hprefix.map (·.partyId.int)
  rw [hids, hids'] at hmap
  exact absurd hmap (by decide)

end Runs

end CoreSim

end ClaimTriage
