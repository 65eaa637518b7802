import ClaimTriage.CoreSim.Linear
import ClaimTriage.Theory.Progress

/-!
# No Call Stands Still

Calls wait for one another: for a claim's row, for an entry of a unique index.
None of them waits for ever.

Every call takes what it needs in one order: the entry of the row it inserts,
then the claim's row, which a status report locks and whatever refers to the
claim shares, then the entry of its key. A report inserts nothing before its
key, so it may start with the row; a document and a party have their entry by
the time their reference is checked. Whoever waits for something has therefore
taken only what comes before it, and whoever has it stands further along. The
call that is furthest along does not wait, and its end lets the next one go on.

## Main definitions

* `Resource.place`, `Stage.place`: The order in which things are taken, and what
  a call at a stage may hold.
* `Stage.left`: The most statements a call has left.
* `next`: A call's next statement, if nothing fails.
* `HeldInv`: What is held or shared a call has that is far enough along.

## Theorems

* `heldInv_of_reachable`: That holds wherever the store gets to.
* `next_or_waits`: A call goes on, or waits for one further along.
* `exists_next`: Somebody can always go on.
* `ends_of_run`: No call goes on for ever, and every run can be brought to where
  its calls are over.
-/

namespace ClaimTriage

open Theory Text Calendar

namespace CoreSim

/-- When a call takes a thing: the entry of what it inserts first, its key's entry
    last, and the row of a claim that is there in between. -/
def Resource.place : Resource → ℕ
  | claimKey _ | documentKey _ | partyKey _ => 1
  | claimRow _ => 2
  | idempotencyKey _ => 3

namespace Stage

/-- How far a call's taking of things has got. -/
def place : Stage → ℕ
  | found (.transition _ _ _) => 2
  | inserted _ _ => 1
  | written _ | collided => 2
  | keyed _ => 3
  | _ => 0

/-- The most statements a call has left. -/
def left : Stage → ℕ
  | waiting => 9
  | connected => 8
  | absent => 7
  | found _ => 6
  | inserted _ _ => 5
  | written _ => 4
  | collided => 3
  | undone => 2
  | keyed _ | replaying _ => 1
  | returned _ | committed _ | unanswered _ | raised _ => 0

theorem left_le (stage : Stage) : stage.left ≤ 9 := by
  cases stage <;> simp only [left] <;> omega

theorem place_le (stage : Stage) : stage.place ≤ 3 := by
  unfold place
  split <;> omega

/-- A call that may hold something is under way, and has begun. -/
theorem open_of_place_pos {stage : Stage} (h : 0 < stage.place) :
    stage.Open ∧ stage ≠ waiting := by
  cases stage with
  | found | inserted | written | collided | keyed => exact ⟨trivial, Stage.noConfusion⟩
  | _ => exact absurd h (Nat.lt_irrefl 0)

/-- A call whose row is in has taken the row's entry, and keeps what it had. -/
theorem place_le_wrote (draft : Draft) (id : Uuid) (now : Moment) :
    (found draft).place ≤ (wrote (draft.write id now).1 (draft.write id now).2).place ∧
      (draft.write id now).1.resource.place ≤
        (wrote (draft.write id now).1 (draft.write id now).2).place := by
  cases draft <;> simp only [place, Draft.write, wrote, Write.references, Write.resource,
    Resource.place] <;> omega

theorem left_wrote_lt (w : Write) (answer : Answer) (draft : Draft) :
    (wrote w answer).left < (found draft).left := by
  rcases wrote_cases w answer with ⟨_, _, hwrote⟩ | ⟨_, hwrote⟩ <;>
    · rw [hwrote]
      simp only [left]
      omega

/-- A call has statements left as long as it is under way. -/
theorem left_pos_iff {stage : Stage} : 0 < stage.left ↔ stage.Open := by
  cases stage <;> simp only [left, Open, iff_true, iff_false] <;> omega

end Stage

/-- A call's next statement where nothing fails, with the identifier and the
    times it draws. -/
def next (drawn : Uuid × Moment × Moment) : Stage → Statement
  | .waiting => .connect
  | .connected => .remember
  | .absent => .check
  | .found _ => .write drawn.1 drawn.2.1
  | .inserted _ _ => .references
  | .written _ => .insertKey drawn.2.2
  | .collided => .undo
  | .undone => .rememberAgain
  | .keyed _ | .replaying _ => .commit
  | .returned _ | .committed _ | .unanswered _ | .raised _ => .fail

section Runs

variable {ι : Type} {calls : ι → Request} {policies : Str → Option Policy}

/-! ### Who holds what -/

/-- What is held or shared a call has that is far enough along to have taken it. -/
def HeldInv (s : State ι) : Prop :=
  ∀ r i, s.db.Has r i → r.place ≤ (s.stage i).place

/-- A call that takes nothing more than its next stage allows keeps to that, at a
    stage no less far along. -/
theorem HeldInv.move {s s' : State ι} (h : HeldInv s) {i : ι}
    (hhas : ∀ r j, s'.db.Has r j →
      s.db.Has r j ∨ r.place ≤ (s'.stage i).place ∧ j = i)
    (hothers : ∀ j, j ≠ i → s'.stage j = s.stage j)
    (hplace : (s.stage i).place ≤ (s'.stage i).place) : HeldInv s' := by
  intro r j hr
  rcases hhas r j hr with hbefore | ⟨htaken, rfl⟩
  · by_cases hji : j = i
    · subst hji
      exact (h r j hbefore).trans hplace
    · rw [hothers j hji]
      exact h r j hbefore
  · exact htaken

/-- A call whose transaction is over has nothing. -/
theorem HeldInv.release {s s' : State ι} (h : HeldInv s) {i : ι}
    (hhas : ∀ r j, s'.db.Has r j → s.db.Has r j ∧ j ≠ i)
    (hothers : ∀ j, j ≠ i → s'.stage j = s.stage j) : HeldInv s' := by
  intro r j hr
  rcases hhas r j hr with ⟨hbefore, hji⟩
  rw [hothers j hji]
  exact h r j hbefore

/-- A call that found what it is about is as far along as what it locked for it. -/
theorem place_lock_le {t : Tables} {call : Call} {draft : Draft} (h : Finds t call draft)
    {r : Resource} (hr : call.lock = some r) : r.place ≤ (Stage.found draft).place := by
  cases h with
  | recordStatus =>
      cases hr
      exact Nat.le_refl _
  | create | attachDocument | recordParty => cases hr

variable [DecidableEq ι]

/-- Every step keeps to it. -/
theorem HeldInv.effect {s s' : State ι} {i : ι} (h : HeldInv s) (he : Effect calls s i s') :
    HeldInv s' := by
  have hothers : ∀ j, j ≠ i → s'.stage j = s.stage j := fun j hji => stage_of_effect he hji
  cases he with
  | connect hs | absent hs _ | collide hs =>
      refine h.move (fun r j hr => Or.inl hr) hothers ?_
      rw [hs, stage_goto]
      exact Nat.le_refl _
  | replay hs _ _ =>
      refine h.move (fun r j hr => Or.inl hr) hothers ?_
      rcases hs with hs | hs <;>
        · rw [hs]
          exact Nat.zero_le _
  | @locate draft hs _ hcheck =>
      refine h.move (fun r j hr => ?_) hothers ?_
      · rw [stage_locate]
        unfold State.locate at hr
        cases hlock : (calls i).call.lock with
        | none =>
            rw [hlock] at hr
            exact Or.inl hr
        | some q =>
            rw [hlock] at hr
            rcases Database.Has.of_acquire hr with hbefore | ⟨rfl, rfl⟩
            · exact Or.inl hbefore
            · exact Or.inr ⟨place_lock_le (check_iff.mp hcheck) hlock, rfl⟩
      · rw [hs]
        exact Nat.zero_le _
  | @write draft id now hs _ _ _ =>
      rcases Stage.place_le_wrote draft id now with ⟨hstage, hentry⟩
      refine h.move (fun r j hr => ?_) hothers ?_
      · rw [stage_insert]
        rcases Database.Has.of_acquire hr with hbefore | ⟨rfl, rfl⟩
        · exact Or.inl hbefore
        · exact Or.inr ⟨hentry, rfl⟩
      · rw [hs, stage_insert]
        exact hstage
  | references hs _ =>
      refine h.move (fun r j hr => ?_) hothers ?_
      · rw [stage_share]
        rcases Database.Has.of_share hr with hbefore | ⟨rfl, rfl⟩
        · exact Or.inl hbefore
        · exact Or.inr ⟨Nat.le_refl _, rfl⟩
      · rw [hs, stage_share]
        exact Nat.le_succ 1
  | insertKey hs _ _ _ =>
      refine h.move (fun r j hr => ?_) hothers ?_
      · rw [stage_insert]
        rcases Database.Has.of_acquire hr with hbefore | ⟨rfl, rfl⟩
        · exact Or.inl hbefore
        · exact Or.inr ⟨Nat.le_refl _, rfl⟩
      · rw [hs, stage_insert]
        exact Nat.le_succ 2
  | undo _ | answer _ | raise _ =>
      exact h.release (fun r j hr => Database.has_rollback.mp hr) hothers
  | commit _ _ => exact h.release (fun r j hr => Database.has_commit.mp hr) hothers

/-- What is held or shared a call has that is far enough along, wherever the store
    gets to. -/
theorem heldInv_of_reachable {s : State ι} (h : (machine calls policies).Reachable s) :
    HeldInv s := by
  refine h.induct ?_ ?_
  · rintro s rfl r i (hr | hr)
    · cases hr
    · exact absurd hr (Finset.notMem_empty i)
  · rintro s ⟨i, a⟩ s' hs hstep
    exact hs.effect (effect_of_step hstep)

/-! ### Who can go on -/

/-- A statement that writes goes through, or waits. -/
theorem send_isSome {s refused : State ι} {i : ι} {w : Write} {stage : Stage}
    (hfree : s.db.Free w.resource i) : (s.send i w stage refused).isSome := by
  unfold State.send
  by_cases hstorable : w.Storable
  · rw [if_pos hstorable, if_pos hfree]
    by_cases haccepts : (s.view i).Accepts w
    · rw [if_pos haccepts]
      rfl
    · rw [if_neg haccepts]
      rfl
  · rw [if_neg hstorable]
    rfl

/-- A call under way goes on, or waits for one that is further along. -/
theorem next_or_waits {s : State ι} (hinv : Inv calls s) (hheld : HeldInv s)
    (drawn : Uuid × Moment × Moment) {i : ι} (hopen : (s.stage i).Open) :
    (step calls s (i, next drawn (s.stage i))).isSome ∨
      ∃ j, (s.stage i).place < (s.stage j).place := by
  have hstage := hinv.stage i
  cases hs : s.stage i with
  | waiting =>
      left
      simp only [step, next, hs, Option.isSome_some]
  | connected =>
      left
      simp only [step, next, hs]
      split
      · split <;> rfl
      · rfl
  | absent =>
      by_cases hfree : ∀ r ∈ (calls i).call.lock, s.db.Free r i ∧ s.db.Unshared r i
      · left
        simp only [step, next, hs, if_pos hfree]
        split <;> rfl
      · right
        -- Somebody holds the row, or somebody shares it.
        simp only [not_forall, not_and_or] at hfree
        rcases hfree with ⟨r, _, hr⟩
        have hhas : ∃ j, j ≠ i ∧ s.db.Has r j :=
          hr.elim Database.exists_has_of_not_free Database.exists_has_of_not_unshared
        rcases hhas with ⟨j, _, hj⟩
        have hpos : 0 < r.place := by
          cases r <;> exact Nat.succ_pos _
        exact ⟨j, hpos.trans_le (hheld r j hj)⟩
  | found draft =>
      by_cases hfree : s.db.Free (draft.write drawn.1 drawn.2.1).1.resource i
      · left
        simp only [step, next, hs]
        exact send_isSome hfree
      · right
        rw [hs] at hstage
        rcases hstage with ⟨_, hfinds, hlock⟩
        rcases Database.exists_has_of_not_free hfree with ⟨j, _, hj⟩
        refine ⟨j, lt_of_lt_of_le ?_ (hheld _ j hj)⟩
        -- A report's row is locked already, so it is an entry that is taken.
        cases draft with
        | transition claimId claim status =>
            refine absurd (Or.inr ?_) hfree
            generalize hcall : (calls i).call = call at hfinds hlock
            cases hfinds
            exact hlock _ rfl
        | claim | document | party => exact Nat.zero_lt_one
  | inserted claimId answer =>
      by_cases hfree : s.db.Free (.claimRow claimId) i
      · left
        simp only [step, next, hs, if_pos hfree, Option.isSome_some]
      · right
        rcases Database.exists_has_of_not_free hfree with ⟨j, _, hj⟩
        exact ⟨j, lt_of_lt_of_le (Nat.lt_succ_self 1) (hheld _ j hj)⟩
  | written answer =>
      by_cases hfree : s.db.Free (.idempotencyKey (calls i).key) i
      · left
        simp only [step, next, hs]
        exact send_isSome hfree
      · right
        rcases Database.exists_has_of_not_free hfree with ⟨j, _, hj⟩
        exact ⟨j, lt_of_lt_of_le (Nat.lt_succ_self 2) (hheld _ j hj)⟩
  | collided | keyed answer | replaying answer =>
      left
      simp only [step, next, hs, Option.isSome_some]
  | undone =>
      left
      simp only [step, next, hs]
      split <;> rfl
  | returned | committed | unanswered | raised =>
      rw [hs] at hopen
      exact hopen.elim

/-- As long as a call is under way, it goes on or one does that is further along
    than it, whatever identifiers and times they draw. -/
theorem exists_next {s : State ι} (h : (machine calls policies).Reachable s)
    (drawn : ι → Uuid × Moment × Moment) {i : ι} (hopen : (s.stage i).Open) :
    ∃ j, (s.stage j).Open ∧ (j = i ∨ (s.stage i).place < (s.stage j).place) ∧
      (step calls s (j, next (drawn j) (s.stage j))).isSome := by
  refine exists_moving (fun i => (s.stage i).place) (fun i => (s.stage i).place_le)
    (fun j hj => ?_) i hopen
  rcases next_or_waits (inv_of_reachable h) (heldInv_of_reachable h) (drawn j) hj with
    hnext | ⟨k, hk⟩
  · exact Or.inl hnext
  · exact Or.inr ⟨k, (Stage.open_of_place_pos ((Nat.zero_le _).trans_lt hk)).1, hk⟩

/-! ### Calls end -/

/-- Every step of a call leaves it fewer statements. -/
theorem left_of_effect {s s' : State ι} {i : ι} (he : Effect calls s i s') :
    (s'.stage i).left < (s.stage i).left := by
  cases he with
  | connect hs | absent hs _ | collide hs =>
      rw [stage_goto, hs]
      exact Nat.lt_succ_self _
  | replay hs _ _ =>
      rw [stage_goto]
      rcases hs with hs | hs <;> rw [hs]
      · exact Nat.one_lt_succ_succ 6
      · exact Nat.lt_succ_self 1
  | locate hs _ _ =>
      rw [stage_locate, hs]
      exact Nat.lt_succ_self 6
  | write hs _ _ _ =>
      rw [stage_insert, hs]
      exact Stage.left_wrote_lt _ _ _
  | references hs _ =>
      rw [stage_share, hs]
      exact Nat.lt_succ_self 4
  | insertKey hs _ _ _ =>
      rw [stage_insert, hs]
      exact Nat.one_lt_succ_succ 2
  | undo hs | answer hs =>
      rw [stage_close, hs]
      exact Nat.lt_succ_self _
  | @commit answer stage hs hout =>
      rw [stage_commit, hs]
      cases stage with
      | committed | unanswered => exact Nat.lt_succ_self 0
      | _ => cases hout
  | raise ho =>
      rw [stage_close]
      exact Stage.left_pos_iff.mpr ho

/-- Every call has fewer statements left with every step of its own, and as many
    with another's. -/
theorem lowers_left (calls : ι → Request) (policies : Str → Option Policy) :
    (machine calls policies).Lowers fun s i => (s.stage i).left where
  own _ _ _ _ hstep := left_of_effect (effect_of_step hstep)
  others _ _ _ _ _ hstep hji := by rw [stage_of_effect (effect_of_step hstep) hji]

/-- A call that has taken no step has not begun. -/
theorem mem_of_begun {as : List (ι × Statement)} {s : State ι}
    (hrun : (machine calls policies).run (start policies) as = some s) {i : ι}
    (hi : s.stage i ≠ .waiting) : i ∈ as.map Prod.fst := by
  by_contra hno
  refine hi (Machine.eq_of_forall_ne (g := fun s : State ι => s.stage i)
    (fun s j a s' hstep hji => stage_of_effect (effect_of_step hstep) fun heq => hji heq.symm)
    (fun b hb hbi => hno ?_) hrun)
  exact List.mem_map.mpr ⟨b, hb, hbi⟩

/-- No call takes more than nine steps, however long it waits and whatever the
    others do. And from wherever any number of calls have got to, those that
    have begun can be brought to their ends, each by its own next statements and
    none by failing, whatever identifiers and times they draw. -/
theorem ends_of_run {as : List (ι × Statement)} {s : State ι}
    (hrun : (machine calls policies).run (start policies) as = some s)
    (drawn : ι → Uuid × Moment × Moment) :
    (∀ i, as.countP (fun a => a.1 = i) ≤ 9) ∧
      ∃ bs s', (machine calls policies).run s bs = some s' ∧
        (machine calls policies).Along
          (fun t b => b.1 ∈ as.map Prod.fst ∧ b.2 = next (drawn b.1) (t.stage b.1)) s bs ∧
        ∀ i ∈ as.map Prod.fst, ¬ (s'.stage i).Open := by
  have hreach : (machine calls policies).Reachable s := ⟨start policies, as, rfl, hrun⟩
  -- The calls that have begun, and whoever holds something is one of them.
  let begun := (as.map Prod.fst).toFinset
  let I := fun s : State ι => (machine calls policies).Reachable s ∧
    ∀ j, s.stage j ≠ .waiting → j ∈ begun
  have hkept : ∀ t i a t', i ∈ begun → I t → step calls t (i, a) = some t' → I t' := by
    rintro t i a t' hi ⟨ht, hbegun⟩ hstep
    refine ⟨ht.step hstep, fun j hj => ?_⟩
    by_cases hji : j = i
    · exact hji ▸ hi
    · exact hbegun j (stage_of_effect (effect_of_step hstep) hji ▸ hj)
  have hmove : ∀ t, I t → (∃ i ∈ begun, 0 < (t.stage i).left) →
      ∃ j ∈ begun, (step calls t (j, next (drawn j) (t.stage j))).isSome := by
    rintro t ⟨ht, hbegun⟩ ⟨i, hi, hleft⟩
    rcases exists_next ht drawn (Stage.left_pos_iff.mp hleft) with ⟨j, _, rfl | hfar, hmoves⟩
    · exact ⟨j, hi, hmoves⟩
    · have hbegan := (Stage.open_of_place_pos ((Nat.zero_le _).trans_lt hfar)).2
      exact ⟨j, hbegun j hbegan, hmoves⟩
  refine ⟨fun i => ?_, ?_⟩
  · have hcount := (lowers_left calls policies).count_add_le hrun i
    exact (Nat.le_add_right _ _).trans (hcount.trans (Stage.left_le _))
  · rcases (lowers_left calls policies).exists_completion _ begun hkept hmove
      ⟨hreach, fun j hj => List.mem_toFinset.mpr (mem_of_begun hrun hj)⟩ with
      ⟨bs, s', hbs, halong, hend⟩
    refine ⟨bs, s', hbs, fun pre b post t hsplit hpre => ?_, fun i hi hopen => ?_⟩
    · rcases halong pre b post t hsplit hpre with ⟨hmem, hnext⟩
      exact ⟨List.mem_toFinset.mp hmem, hnext⟩
    · exact (Stage.left_pos_iff.mpr hopen).ne' (hend i (List.mem_toFinset.mpr hi))

/-- The calls of the run below: a claim is received, and while its status is
    reported a party of it is recorded. -/
def referring : Fin 3 → Request
  | 0 => ⟨.create submitted, text "a"⟩
  | 1 => ⟨.recordStatus ⟨1, Uuid.one_valid⟩ .triaged, text "b"⟩
  | 2 => ⟨.recordParty ⟨1, Uuid.one_valid⟩ ⟨.claimant⟩, text "c"⟩

/-- The party's row is in when the report locks the claim. -/
def heldUp : List (Fin 3 × Statement) :=
  let now : Moment := ⟨.third, .noon⟩
  [(0, .connect), (0, .remember), (0, .check), (0, .write ⟨1, Uuid.one_valid⟩ now),
    (0, .insertKey now), (0, .commit), (2, .connect), (2, .remember), (2, .check),
    (2, .write ⟨2, Uuid.two_valid⟩ now), (1, .connect), (1, .remember), (1, .check)]

set_option maxRecDepth 100000 in
/-- The party's reference waits for the report, and both come to their ends. -/
theorem ends_of_run_heldUp :
    ∃ s : State (Fin 3), step referring s (2, .references) = none ∧
      ∃ bs s', (machine referring Tables.seeded.policies).run s bs = some s' ∧
        ∀ i, ¬ (s'.stage i).Open := by
  have hrun : (((machine referring Tables.seeded.policies).run (start Tables.seeded.policies)
      heldUp).map fun s => (step referring s (2, .references)).isNone) = some true := by
    decide +kernel
  have hbegun : ∀ i, i ∈ heldUp.map Prod.fst := by decide +kernel
  rcases Option.map_eq_some_iff.mp hrun with ⟨s, hs, hwaits⟩
  rcases (ends_of_run hs fun _ => (⟨7, Uuid.seven_valid⟩, ⟨.third, .noon⟩, ⟨.third, .noon⟩)).2 with
    ⟨bs, s', hbs, _, hend⟩
  exact ⟨s, Option.isNone_iff_eq_none.mp hwaits, bs, s', hbs, fun i => hend i (hbegun i)⟩

end Runs

end CoreSim

end ClaimTriage
