import ClaimTriage.Evaluation.Proportions

/-!
# How a Ranking Is Read

A ranking is hit at a depth exactly if the reciprocal of its first hit's rank is that
of the depth or more (`hitAt_iff`): one metric cuts the list off and looks for any
expected clause in it, and the other looks for the first one.

So the mean of the reciprocals lies between the rate of hits at the first place and
what the rate at any depth leaves of it: a case that is no hit at a depth counts for
the reciprocal of the next one at most (`hitRate_le_meanRank`).

## Main definitions

* `hitRate`, `meanRank`: What a retrieval that was answered is measured by.

## Theorems

* `hitAt_iff`: A hit at a depth, by the reciprocal of the rank.
* `hits_mono`: There are no fewer hits at a greater depth.
* `rank_bounds`: Both metrics read a ranking the same way.
-/

namespace ClaimTriage

namespace Evaluation

open Theory Text

section Rank

variable {expected ranked : List ClauseRef}

/-- The reciprocal is that of a rank from the first one on, or zero. -/
theorem reciprocalRankFrom_cases (expected ranked : List ClauseRef) (rank : Nat) :
    reciprocalRankFrom exact expected rank ranked = 0 ∨
      ∃ n, reciprocalRankFrom exact expected rank ranked = 1 / ((rank + n : Nat) : ℚ) := by
  induction ranked generalizing rank with
  | nil => exact Or.inl rfl
  | cons clause rest ih =>
      unfold reciprocalRankFrom
      split
      · exact Or.inr ⟨0, rfl⟩
      · rcases ih (rank + 1) with hzero | ⟨n, hn⟩
        · exact Or.inl hzero
        · refine Or.inr ⟨n + 1, ?_⟩
          rw [hn, Nat.add_right_comm, Nat.add_assoc]

theorem hitAt_nil (k : Nat) : hitAt [] expected k = false := by
  unfold hitAt identities
  rw [List.take_nil]
  rfl

theorem hitAt_cons (clause : ClauseRef) (rest : List ClauseRef) (k : Nat) :
    hitAt (clause :: rest) expected (k + 1) =
      (decide (clause.identity ∈ identities expected) || hitAt rest expected k) :=
  rfl

/-- From any rank on, the ranking is hit within so many places more exactly if the reciprocal
    is not less than that of the last of them. -/
theorem le_reciprocalRankFrom_iff {rank : Nat} (hrank : 1 ≤ rank) (n : Nat) :
    1 / ((rank + n : Nat) : ℚ) ≤ reciprocalRankFrom exact expected rank ranked ↔
      hitAt ranked expected (n + 1) = true := by
  induction ranked generalizing rank n with
  | nil =>
      have hpos : (0 : ℚ) < 1 / ((rank + n : Nat) : ℚ) :=
        one_div_pos.mpr (Nat.cast_pos.mpr (by omega))
      rw [hitAt_nil]
      exact ⟨fun h => absurd hpos (not_lt.mpr h), nofun⟩
  | cons clause rest ih =>
      rw [hitAt_cons]
      unfold reciprocalRankFrom
      by_cases hhit : clause.identity ∈ identities expected
      · rw [if_pos hhit, decide_eq_true hhit, Bool.true_or]
        refine ⟨fun _ => rfl, fun _ => ?_⟩
        exact one_div_le_one_div_of_le (Nat.cast_pos.mpr hrank) (Nat.cast_le.mpr (by omega))
      · rw [if_neg hhit, decide_eq_false hhit, Bool.false_or]
        cases n with
        | zero =>
            -- What is not hit at its first place has its first hit behind it.
            have hbehind : reciprocalRankFrom exact expected (rank + 1) rest < 1 / (rank : ℚ) := by
              have hpos : (0 : ℚ) < rank := Nat.cast_pos.mpr hrank
              rcases reciprocalRankFrom_cases expected rest (rank + 1) with hzero | ⟨n, hn⟩
              · rw [hzero]
                exact one_div_pos.mpr hpos
              · rw [hn]
                exact one_div_lt_one_div_of_lt hpos (Nat.cast_lt.mpr (by omega))
            have hnone : hitAt rest expected 0 = false := rfl
            rw [hnone, Nat.add_zero]
            exact ⟨fun h => absurd hbehind (not_lt.mpr h), nofun⟩
        | succ n =>
            rw [← ih (Nat.le_add_left 1 rank) n, Nat.add_assoc, Nat.add_comm 1 n]

/-- A ranking is hit at a depth exactly if the reciprocal of its first hit's rank is not less
    than that of the depth. -/
theorem hitAt_iff {k : Nat} (hk : 1 ≤ k) :
    hitAt ranked expected k = true ↔ 1 / (k : ℚ) ≤ reciprocalRank exact ranked expected := by
  rcases Nat.exists_eq_add_of_le hk with ⟨n, rfl⟩
  rw [reciprocalRank, le_reciprocalRankFrom_iff le_rfl, Nat.add_comm]

/-- A ranking that is no hit at a depth has its first hit at the next one at best. -/
theorem reciprocalRank_le {k : Nat} (h : hitAt ranked expected k = false) :
    reciprocalRank exact ranked expected ≤ 1 / ((k : ℚ) + 1) := by
  have hpos : (0 : ℚ) < k + 1 := by positivity
  rcases reciprocalRankFrom_cases expected ranked 1 with hzero | ⟨n, hn⟩
  · rw [reciprocalRank, hzero]
    exact (one_div_pos.mpr hpos).le
  · have hdeep : k + 1 ≤ 1 + n := by
      by_contra hshallow
      have hhit : hitAt ranked expected k = true := by
        rw [hitAt_iff (by omega), reciprocalRank, hn]
        exact one_div_le_one_div_of_le (Nat.cast_pos.mpr (by omega)) (Nat.cast_le.mpr (by omega))
      rw [h] at hhit
      cases hhit
    rw [reciprocalRank, hn]
    exact one_div_le_one_div_of_le hpos (by exact_mod_cast hdeep)

/-- What is a hit at a depth is one at every greater depth. -/
theorem hitAt_mono {k k' : Nat} (h : k ≤ k') (hhit : hitAt ranked expected k = true) :
    hitAt ranked expected k' = true := by
  cases k with
  | zero => cases hhit
  | succ k =>
      rw [hitAt_iff (Nat.le_add_left 1 k)] at hhit
      rw [hitAt_iff (by omega)]
      refine le_trans ?_ hhit
      exact one_div_le_one_div_of_le (Nat.cast_pos.mpr (Nat.succ_pos k)) (Nat.cast_le.mpr h)

end Rank

section Rates

/-- What counts for one where something holds counts for no less in all. -/
theorem countP_le_sum {α : Type} {p : α → Bool} {f : α → ℚ}
    (h : ∀ a, (if p a then 1 else 0) ≤ f a) (l : List α) : (l.countP p : ℚ) ≤ (l.map f).sum := by
  induction l with
  | nil => exact le_rfl
  | cons a l ih =>
      have ha := h a
      rw [List.countP_cons, List.map_cons, List.sum_cons]
      push_cast
      linarith

/-- What counts for one at most where something holds, and elsewhere for a constant at most,
    counts for no more in all. -/
theorem sum_le_countP {α : Type} {p : α → Bool} {f : α → ℚ} {c : ℚ}
    (h : ∀ a, f a ≤ if p a then 1 else c) (l : List α) :
    (l.map f).sum ≤ l.countP p + (l.length - l.countP p) * c := by
  induction l with
  | nil => simp
  | cons a l ih =>
      have ha := h a
      rw [List.countP_cons, List.map_cons, List.sum_cons, List.length_cons]
      push_cast
      split at ha <;> rename_i hp <;> simp only [hp] <;> norm_num <;> linarith

variable (golden : GoldenSet .retrieval RetrievalCase) (recorded : List (Str × RetrievalAnswer))

/-- The rate of hits a retrieval is measured by at a depth. -/
def hitRate (k : Nat) : Option ℚ :=
  (measureRetrieval exact golden (some recorded) k).metrics.lookup (text "retrieval.hit_rate")

/-- The mean of the reciprocals it is measured by. -/
def meanRank (k : Nat) : Option ℚ :=
  (measureRetrieval exact golden (some recorded) k).metrics.lookup (text "retrieval.mrr")

/-- How many of the cases are hits at a depth. -/
def hits (k : Nat) : Nat :=
  golden.cases.countP fun case => hitAt (retrievedFor recorded case).1 case.expected k

/-- The reciprocals of the cases, added up. -/
def ranks : ℚ :=
  (golden.cases.map fun case =>
    reciprocalRank exact (retrievedFor recorded case).1 case.expected).sum

variable {golden} {recorded}

theorem hitRate_eq (h : golden.cases ≠ []) (k : Nat) :
    hitRate golden recorded k = some ((hits golden recorded k : ℚ) / golden.cases.length) := by
  unfold hitRate measureRetrieval
  rw [if_neg h]
  simp only [scored]
  split <;> rfl

theorem meanRank_eq (h : golden.cases ≠ []) (k : Nat) :
    meanRank golden recorded k = some (ranks golden recorded / golden.cases.length) := by
  have hranks : golden.cases.foldl (fun ranks case => exact.float (ranks +
      reciprocalRank exact (retrievedFor recorded case).1 case.expected)) 0 =
      ranks golden recorded := by
    unfold ranks
    rw [List.sum_eq_foldl, List.foldl_map]
    rfl
  have hapart : (text "retrieval.mrr" == text "retrieval.hit_rate") = false := by decide
  unfold meanRank measureRetrieval
  rw [if_neg h]
  simp only [scored, hranks]
  split
  · rw [List.lookup_cons, hapart]
    rfl
  · rw [List.cons_append, List.lookup_cons, hapart]
    rfl

/-- At the first place the rate of hits is no more than the mean, and at any depth what it
    leaves of the mean counts for the reciprocal of the next place at most. -/
theorem hitRate_le_meanRank {k : Nat} :
    (hits golden recorded 1 : ℚ) ≤ ranks golden recorded ∧
      ranks golden recorded ≤ hits golden recorded k +
        (golden.cases.length - hits golden recorded k) * (1 / ((k : ℚ) + 1)) := by
  refine ⟨countP_le_sum (fun case => ?_) _, sum_le_countP (fun case => ?_) _⟩
  · split
    · rename_i hhit
      rw [hitAt_iff le_rfl] at hhit
      simpa using hhit
    · exact (reciprocalRankFrom_proportion _ _ le_rfl).1
  · split
    · exact (reciprocalRankFrom_proportion _ _ le_rfl).2
    · rename_i hmiss
      exact reciprocalRank_le (Bool.eq_false_of_not_eq_true hmiss)

theorem hits_mono {k k' : Nat} (h : k ≤ k') : hits golden recorded k ≤ hits golden recorded k' :=
  List.countP_mono_left fun _ _ => hitAt_mono h

end Rates

/-- A hit at a depth and the reciprocal of the first hit's rank read a ranking the same way.
    The rate of hits at the first place is no more than the mean of the reciprocals, which is
    no more than the rate at any depth and what that leaves at the next one; and the rate is
    no less at a greater depth. -/
theorem rank_bounds :
    (∀ (ranked expected : List ClauseRef) (k : Nat), 1 ≤ k →
      (hitAt ranked expected k = true ↔ 1 / (k : ℚ) ≤ reciprocalRank exact ranked expected)) ∧
    ∀ golden : GoldenSet .retrieval RetrievalCase, golden.cases ≠ [] →
      ∀ (recorded : List (Str × RetrievalAnswer)) (k : Nat), 1 ≤ k →
        ∃ first h mrr, hitRate golden recorded 1 = some first ∧ hitRate golden recorded k = some h ∧
          meanRank golden recorded k = some mrr ∧
          first ≤ mrr ∧ mrr ≤ h + (1 - h) / (k + 1) ∧
          ∀ k', k ≤ k' → ∃ h', hitRate golden recorded k' = some h' ∧ h ≤ h' := by
  refine ⟨fun ranked expected k => hitAt_iff, fun golden hcases recorded k hk => ?_⟩
  have hpos : (0 : ℚ) < golden.cases.length :=
    Nat.cast_pos.mpr (List.length_pos_iff.mpr hcases)
  have hbounds := @hitRate_le_meanRank golden recorded k
  refine ⟨_, _, _, hitRate_eq hcases 1, hitRate_eq hcases k, meanRank_eq hcases k, ?_, ?_, ?_⟩
  · exact div_le_div_of_nonneg_right hbounds.1 hpos.le
  · -- Both sides are averages over the cases.
    have hright : (hits golden recorded k : ℚ) / golden.cases.length +
        (1 - (hits golden recorded k : ℚ) / golden.cases.length) / (k + 1) =
        (hits golden recorded k +
          (golden.cases.length - hits golden recorded k) * (1 / ((k : ℚ) + 1))) /
            golden.cases.length := by
      field_simp
    rw [hright]
    exact div_le_div_of_nonneg_right hbounds.2 hpos.le
  · intro k' hle
    refine ⟨_, hitRate_eq hcases k', ?_⟩
    exact div_le_div_of_nonneg_right (Nat.cast_le.mpr (hits_mono hle)) hpos.le

/-- A clause of an edition, on no page. -/
def clauseNamed (name : String) : ClauseRef where
  clauseId := text name
  edition := text "1"
  page := none
  page_pos := page_pos_none

/-- Two questions, both about one clause. -/
def twoAsked : GoldenSet .retrieval RetrievalCase where
  version := 1
  description := []
  cases := [text "a", text "b"].map fun id =>
    ⟨id, text "q", .newYear, text "p", [clauseNamed "E"], List.cons_ne_nil _ _⟩
  path := []
  version_pos := Nat.one_pos

/-- The clause comes first for one of them, and second for the other. -/
def twoRanked : List (Str × RetrievalAnswer) :=
  [(text "a", ⟨[clauseNamed "E"], []⟩), (text "b", ⟨[clauseNamed "F", clauseNamed "E"], []⟩)]

/-- At the first place half of them are hits, and the mean is what that leaves at the
    second at most. -/
theorem rank_bounds_twoRanked :
    (1 / 2 : ℚ) ≤ 3 / 4 ∧ (3 / 4 : ℚ) ≤ 1 / 2 + (1 - 1 / 2) / ((1 : ℕ) + 1) ∧
      meanRank twoAsked twoRanked 1 = some (3 / 4) ∧ hitRate twoAsked twoRanked 1 = some (1 / 2) ∧
      hitRate twoAsked twoRanked 2 = some 1 := by
  have hrate : hitRate twoAsked twoRanked 1 = some (1 / 2) := by decide +kernel
  have hmean : meanRank twoAsked twoRanked 1 = some (3 / 4) := by decide +kernel
  rcases rank_bounds.2 twoAsked (List.cons_ne_nil _ _) twoRanked 1 le_rfl with
    ⟨first, h, mrr, hfirst, hh, hmrr, hle, hbound, _⟩
  cases hrate.symm.trans hfirst
  cases hrate.symm.trans hh
  cases hmean.symm.trans hmrr
  exact ⟨hle, hbound, hmean, hrate, by decide +kernel⟩

end Evaluation

end ClaimTriage
