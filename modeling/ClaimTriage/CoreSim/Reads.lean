import ClaimTriage.CoreSim.App
import ClaimTriage.CoreSim.Linear
import ClaimTriage.Theory.Observe

/-!
# Reads among Writes

Any number of reads among any number of writes look like reads and writes done
at once, one after the other.

A read of a policy or of a claim is one statement, and sees what is committed
when that is sent. A read of a claim's parties is two: the claim is looked up
first, and its parties are selected by a statement of their own, which may see
more than the first did. It is still one read, done where the parties are
selected, as the claim it found is held from then on; and where the claim was
not found, done where it was looked up.

## Main definitions

* `Read`: The reads of the store.
* `shown`: A read done at once.
* `Reading`, `look`: How far a read has got, and what comes next.
* `reading`: The reads as observers of the tables.

## Theorems

* `shown_of_look`: What a read has fetched is what a read at once shows there.
* `linearizes_of_run`: Every run of reads and writes looks like reads and writes
  done one after the other.
-/

namespace ClaimTriage

open Theory Text Calendar

namespace CoreSim

/-- The reads of the store. -/
inductive Read where
  | readPolicy (policyNumber : Str)
  | readClaim (claimId : Uuid)
  | readClaimParties (claimId : Uuid)
  deriving DecidableEq

/-- The policy that is there, or the refusal that says there is none. -/
def policyOf (t : Tables) (policyNumber : Str) : Except Raised Policy :=
  match t.policies policyNumber with
  | none => .error (.policyNotFound policyNumber)
  | some policy => .ok policy

/-- A read done at once. -/
def shown (t : Tables) : Read → Except Raised Body
  | .readPolicy policyNumber => (policyOf t policyNumber).map .policy
  | .readClaim claimId => (read t claimId).map fun claim => .written (.claim claim)
  | .readClaimParties claimId => (readParties t t claimId).map .parties

/-- How far a read has got. `held` has found the claim whose parties it is to
    select, `fetched` has read what it will answer once its transaction has ended,
    and the last two are over. -/
inductive Reading where
  | waiting
  | connected
  | held
  | fetched (given : Except Raised Body)
  | returned (given : Except Raised Body)
  | failed (error : Raised)

namespace Reading

/-- The read is under way. -/
def Open : Reading → Prop
  | returned _ | failed _ => False
  | _ => True

instance (r : Reading) : Decidable r.Open := by
  cases r <;> simp only [Open] <;> infer_instance

/-- What the read has answered or will answer, once it has read it. -/
def seen : Reading → Option (Except Raised Body)
  | fetched given | returned given => some given
  | _ => none

/-- What the read has answered. -/
def told : Reading → Option (Except Raised Body)
  | returned given => some given
  | _ => none

end Reading

/-- What a read does next. -/
inductive Look where
  | connect
  | lookUp
  | select
  | commit
  | fail
  deriving DecidableEq

/-- What comes of a read's next statement. -/
def look (t : Tables) (asked : Read) (r : Reading) (next : Look) : Option Reading :=
  match next, r, asked with
  | .connect, .waiting, _ => some .connected
  | .lookUp, .connected, .readClaimParties claimId =>
    match requireClaim t claimId with
    | .ok _ => some .held
    | .error e => some (.returned (.error e))
  | .select, .connected, .readPolicy policyNumber =>
    if Theory.Storable policyNumber then
      some (.fetched ((policyOf t policyNumber).map .policy))
    else some (.failed .dataError)
  | .select, .connected, .readClaim claimId =>
    some (.fetched ((read t claimId).map fun claim => .written (.claim claim)))
  | .select, .held, .readClaimParties claimId =>
    some (.fetched (.ok (.parties (selectParties t claimId))))
  | .commit, .fetched given, _ => some (.returned given)
  | .fail, r, _ => if r.Open then some (.failed .operationalError) else none
  | _, _, _ => none

/-- The reads as observers of the tables. -/
def reading : Seeing Tables Read (Except Raised Body) Reading Look where
  begins := .waiting
  look := look
  seen := Reading.seen
  told := Reading.told
  seen_begins := rfl
  seen_of_told r a h := by
    cases r with
    | returned given => exact h
    | _ => cases h

/-- What a read that has found its claim rests on. -/
def Reading.Holds (t : Tables) (asked : Read) (r : Reading) : Prop :=
  r = .held → ∃ claimId, asked = .readClaimParties claimId ∧ (t.claims claimId).isSome

/-- Everything a look can do. -/
theorem look_cases {t : Tables} {asked : Read} {r r' : Reading} {next : Look}
    (h : look t asked r next = some r') :
    (r' = .held ∧ ∃ claimId, asked = .readClaimParties claimId ∧ (t.claims claimId).isSome) ∨
    (r' ≠ .held ∧ (r'.seen = none ∨ r'.seen = r.seen ∨
      (r = .held ∧ ∃ claimId, asked = .readClaimParties claimId ∧
        r'.seen = some (.ok (.parties (selectParties t claimId)))) ∨
      r'.seen = some (shown t asked))) := by
  unfold look at h
  split at h
  · cases h
    exact Or.inr ⟨by rintro ⟨⟩, Or.inl rfl⟩
  · rename_i claimId
    cases hrow : (t.claims claimId).isSome with
    | true =>
        simp only [requireClaim, hrow, if_true, Option.some.injEq] at h
        exact Or.inl ⟨h.symm, claimId, rfl, hrow⟩
    | false =>
        simp only [requireClaim, hrow, Bool.false_eq_true, if_false, Option.some.injEq] at h
        subst h
        refine Or.inr ⟨by rintro ⟨⟩, Or.inr (Or.inr (Or.inr ?_))⟩
        simp only [Reading.seen, shown, readParties, requireClaim, hrow, Bool.false_eq_true,
          if_false, Except.map]
  · split at h
    · cases h
      exact Or.inr ⟨by rintro ⟨⟩, Or.inr (Or.inr (Or.inr rfl))⟩
    · cases h
      exact Or.inr ⟨by rintro ⟨⟩, Or.inl rfl⟩
  · cases h
    exact Or.inr ⟨by rintro ⟨⟩, Or.inr (Or.inr (Or.inr rfl))⟩
  · rename_i claimId
    cases h
    exact Or.inr ⟨by rintro ⟨⟩, Or.inr (Or.inr (Or.inl ⟨rfl, claimId, rfl, rfl⟩))⟩
  · cases h
    exact Or.inr ⟨by rintro ⟨⟩, Or.inr (Or.inl rfl)⟩
  · split at h
    · cases h
      exact Or.inr ⟨by rintro ⟨⟩, Or.inl rfl⟩
    · cases h
  · cases h

theorem holds_of_look {t : Tables} {asked : Read} {r r' : Reading} {next : Look}
    (h : look t asked r next = some r') : r'.Holds t asked := by
  intro hheld
  rcases look_cases h with ⟨_, hfound⟩ | ⟨hne, _⟩
  · exact hfound
  · exact absurd hheld hne

/-- What a read has fetched is what a read at once shows there, as the claim it
    found is held still. -/
theorem shown_of_look {t : Tables} {asked : Read} {r r' : Reading} {next : Look}
    {given : Except Raised Body} (hr : r.Holds t asked) (h : look t asked r next = some r')
    (hseen : r'.seen = some given) : r.seen = some given ∨ shown t asked = given := by
  rcases look_cases h with ⟨rfl, _⟩ | ⟨_, hnone | hsame | ⟨hheld, claimId, rfl, hparties⟩ | hshown⟩
  · cases hseen
  · rw [hnone] at hseen
    cases hseen
  · exact Or.inl (hsame ▸ hseen)
  · right
    rcases hr hheld with ⟨_, ⟨⟩, hrow⟩
    rw [hparties, Option.some.injEq] at hseen
    rw [← hseen]
    simp only [shown, readParties, requireClaim, hrow, if_true, Except.map]
  · rw [hshown, Option.some.injEq] at hseen
    exact Or.inr hseen

section Runs

variable {ι κ : Type} [DecidableEq ι] [DecidableEq κ] {calls : ι → Request} {reads : κ → Read}
variable {policies : Str → Option Policy}

variable (calls reads policies) in
/-- The store under a family of writes and a family of reads. -/
def served : Machine (State ι × (κ → Reading)) ((ι ⊕ κ) × (Statement ⊕ Look)) :=
  (machine calls policies).observed (fun s => s.db.committed) reading reads

/-- However any number of reads and writes interleave, they look like reads and
    writes done at once, one after the other: a serial history of them leaves what
    they have left, and gives each the answer, or the refusal, it was given; it has
    each one that was answered once, and no others; and one that was over before
    another one began comes first in it. -/
theorem linearizes_of_run {as : List ((ι ⊕ κ) × (Statement ⊕ Look))}
    {s : State ι × (κ → Reading)}
    (hrun : (served calls reads policies).run (start policies, fun _ => .waiting) as = some s) :
    ∃ history, Machine.Linearizes (Either Does fun t asked given => shown t asked = given)
      (Sum.map calls reads) (fun s => s.1.db.committed)
      (Machine.answers (fun s i => (s.stage i).given) reading)
      (start policies, fun _ => Reading.waiting) as s history := by
  have hinit : (served calls reads policies).init (start policies, fun _ => .waiting) := ⟨rfl, rfl⟩
  refine Machine.exists_linearizes_observed (I := fun t asked r => r.Holds t asked) ?_ ?_ ?_ ?_ ?_
    hinit hrun
  · rintro s as s' rfl hs i
    exact exists_pointed hs i
  · rintro t asked ⟨⟩
  · rintro s i a s' asked r hs hstep hr hheld
    -- A claim that was found is not taken away.
    rcases hr hheld with ⟨claimId, hasked, hrow⟩
    rcases Option.isSome_iff_exists.mp hrow with ⟨row, hclaim⟩
    rcases grown_of_run hs (Machine.run_of_step hstep) claimId row hclaim with ⟨row', hrow', _⟩
    exact ⟨claimId, hasked, Option.isSome_iff_exists.mpr ⟨row', hrow'⟩⟩
  · exact fun t asked r next r' _ h => holds_of_look h
  · exact fun t asked r next r' given hr h hseen => shown_of_look hr h hseen

/-- The claim is looked up before its parties are recorded, and they are selected
    when the second of them is committed and the first is not. -/
def between : List ((Fin 3 ⊕ Unit) × (Statement ⊕ Look)) :=
  let writes := overtaken.map fun a => (Sum.inl a.1, Sum.inl a.2)
  writes.take 6 ++ [(.inr (), .inr .connect), (.inr (), .inr .lookUp)] ++
    (writes.drop 6).take 12 ++ [(.inr (), .inr .select)] ++ writes.drop 18 ++
    [(.inr (), .inr .commit)]

/-- The identifiers a read lists, once it is over. -/
def Reading.parties (r : Reading) : Option (List Nat) :=
  match r with
  | .returned (.ok (.parties parties)) => some (parties.map (·.partyId.int))
  | _ => none

set_option maxRecDepth 100000 in
theorem linearizes_of_run_between :
    ∃ s history, (s.2 ()).parties = some [6] ∧
      Machine.Linearizes (Either Does fun t asked given => shown t asked = given)
        (Sum.map recording fun _ => Read.readClaimParties ⟨1, Uuid.one_valid⟩)
        (fun s => s.1.db.committed) (Machine.answers (fun s i => (s.stage i).given) reading)
        (start Tables.seeded.policies, fun _ => Reading.waiting) between s history := by
  have hrun : ((served recording (fun _ => .readClaimParties ⟨1, Uuid.one_valid⟩)
      Tables.seeded.policies).run (start Tables.seeded.policies, fun _ => .waiting) between).map
        (fun s => (s.2 ()).parties) = some (some [6]) := by decide +kernel
  rcases Option.map_eq_some_iff.mp hrun with ⟨s, hs, hparties⟩
  rcases linearizes_of_run hs with ⟨history, hhistory⟩
  exact ⟨s, history, hparties, hhistory⟩

end Runs

end CoreSim

end ClaimTriage
