import ClaimTriage.Theory.Machine
import Mathlib.Algebra.Order.BigOperators.Group.Finset

/-!
# Progress

Parties that wait for one another, and why they all end.

Two things are enough. Whoever waits waits for somebody further along, so with
places that are bounded there is always somebody who does not wait. And every
step brings its own party closer to its end and moves no other, so a party takes
no more steps than it has left, and whoever goes on as long as somebody can comes
to where all have ended.

## Main definitions

* `Machine.Lowers`: Every step of a party leaves it less to do.

## Theorems

* `exists_moving`: Somebody moves, if whoever waits waits for somebody further
  along.
* `Machine.Lowers.count_add_le`: A party takes no more steps than it had left.
* `Machine.Lowers.exists_completion`: From wherever somebody can always move, everybody
  ends.
-/

namespace Theory

/-- If whoever waits waits for somebody further along, and nobody is further
    along than a bound, then whoever is looked at moves, or somebody further
    along does. -/
theorem exists_moving {ι : Type*} {Busy Moves : ι → Prop} (place : ι → ℕ) {bound : ℕ}
    (hbound : ∀ i, place i ≤ bound)
    (hwait : ∀ i, Busy i → Moves i ∨ ∃ j, Busy j ∧ place i < place j) (i : ι) (hi : Busy i) :
    ∃ j, Busy j ∧ (j = i ∨ place i < place j) ∧ Moves j := by
  -- The induction is on how far the bound still is.
  induction hn : bound - place i using Nat.strong_induction_on generalizing i with
  | _ n ih =>
      rcases hwait i hi with hmoves | ⟨j, hj, hlt⟩
      · exact ⟨i, hi, Or.inl rfl, hmoves⟩
      · have hji := hbound j
        rcases ih (bound - place j) (by omega) j hj rfl with ⟨k, hk, hfar, hmoves⟩
        refine ⟨k, hk, Or.inr ?_, hmoves⟩
        rcases hfar with rfl | hfar
        · exact hlt
        · exact hlt.trans hfar

namespace Machine

variable {σ ι α : Type*} {m : Machine σ (ι × α)}

/-- What only a party's own steps change of it stays without them. -/
theorem eq_of_forall_ne {β : Type*} {g : σ → β} {i : ι}
    (hothers : ∀ s j a s', m.step s (j, a) = some s' → j ≠ i → g s' = g s) {s s' : σ}
    {as : List (ι × α)} (hno : ∀ b ∈ as, b.1 ≠ i) (hrun : m.run s as = some s') : g s' = g s := by
  induction as generalizing s with
  | nil =>
      rw [run_nil, Option.some.injEq] at hrun
      rw [hrun]
  | cons b as ih =>
      rcases run_cons_eq_some.mp hrun with ⟨t, ht, hrest⟩
      have hb := hno b List.mem_cons_self
      rw [ih (fun c hc => hno c (List.mem_cons_of_mem _ hc)) hrest,
        hothers s b.1 b.2 t ht hb]

/-- Every step of a party leaves it less to do, and the others as much as
    before. -/
structure Lowers (m : Machine σ (ι × α)) (left : σ → ι → ℕ) : Prop where
  own : ∀ s i a s', m.step s (i, a) = some s' → left s' i < left s i
  others : ∀ s i a s' j, m.step s (i, a) = some s' → j ≠ i → left s' j = left s j

/-- A party takes no more steps in a run than it had left. -/
theorem Lowers.count_add_le [DecidableEq ι] {left : σ → ι → ℕ} (h : m.Lowers left) {s s' : σ}
    {as : List (ι × α)} (hrun : m.run s as = some s') (i : ι) :
    as.countP (fun a => a.1 = i) + left s' i ≤ left s i := by
  induction as generalizing s with
  | nil =>
      rw [run_nil, Option.some.injEq] at hrun
      rw [hrun, List.countP_nil, Nat.zero_add]
  | cons b as ih =>
      rcases b with ⟨j, a⟩
      rcases run_cons_eq_some.mp hrun with ⟨t, ht, hrest⟩
      have hrec := ih hrest
      rw [List.countP_cons]
      by_cases hji : j = i
      · subst hji
        have hown := h.own s j a t ht
        simp only [decide_true, if_true]
        omega
      · have hother := h.others s j a t i ht fun heq => hji heq.symm
        simp only [hji, decide_false, Bool.false_eq_true, if_false]
        omega

/-- If somebody of a finite number of parties can move whenever one of them has
    something left to do, then they can all be brought to their ends, each by
    the actions that are next for it. What that rests on only has to survive
    what these parties do. -/
theorem Lowers.exists_completion [DecidableEq ι] {left : σ → ι → ℕ} (h : m.Lowers left)
    {I : σ → Prop} (next : σ → ι → α) (parties : Finset ι)
    (hkept : ∀ s i a s', i ∈ parties → I s → m.step s (i, a) = some s' → I s')
    (hmove : ∀ s, I s → (∃ i ∈ parties, 0 < left s i) →
      ∃ j ∈ parties, (m.step s (j, next s j)).isSome) {s : σ} (hs : I s) :
    ∃ bs s', m.run s bs = some s' ∧
      m.Along (fun t b => b.1 ∈ parties ∧ b.2 = next t b.1) s bs ∧
      ∀ i ∈ parties, left s' i = 0 := by
  induction hn : ∑ i ∈ parties, left s i using Nat.strong_induction_on generalizing s with
  | _ n ih =>
      by_cases hleft : ∃ i ∈ parties, 0 < left s i
      · rcases hmove s hs hleft with ⟨j, hj, hsome⟩
        rcases Option.isSome_iff_exists.mp hsome with ⟨t, ht⟩
        have hlt : ∑ i ∈ parties, left t i < ∑ i ∈ parties, left s i := by
          refine Finset.sum_lt_sum (fun i _ => ?_) ⟨j, hj, h.own s j _ t ht⟩
          by_cases hij : i = j
          · subst hij
            exact (h.own s i _ t ht).le
          · exact (h.others s j _ t i ht hij).le
        rcases ih _ (hn ▸ hlt) (hkept s j _ t hj hs ht) rfl with ⟨bs, s', hrun, halong, hend⟩
        refine ⟨(j, next s j) :: bs, s', run_cons_eq_some.mpr ⟨t, ht, hrun⟩, ?_, hend⟩
        intro pre b post u hsplit hpre
        -- The action is the first one, or one of those after it.
        cases pre with
        | nil =>
            rw [run_nil, Option.some.injEq] at hpre
            rw [List.nil_append, List.cons.injEq] at hsplit
            rw [← hpre, ← hsplit.1]
            exact ⟨hj, rfl⟩
        | cons c pre =>
            rw [List.cons_append, List.cons.injEq] at hsplit
            rcases run_cons_eq_some.mp hpre with ⟨t', ht', hpre'⟩
            rw [← hsplit.1, ht, Option.some.injEq] at ht'
            exact halong pre b post u hsplit.2 (ht' ▸ hpre')
      · refine ⟨[], s, rfl, along_nil _ s, fun i hi => ?_⟩
        exact Nat.eq_zero_of_not_pos fun hpos => hleft ⟨i, hi, hpos⟩

end Machine

end Theory
