import ClaimTriage.Evaluation.Metrics
import ClaimTriage.Theory.Precision

/-!
# The Area Under the Curve

The loop that reads the curve comes, in exact arithmetic, to the area under it.

What the loop has still to add, from where it stands, is the sum over the scores
that are left (`remaining`); one round adds the first of its terms and leaves the
others (`remaining_eq`). So it ends with the sum over all scores, which is the
average precision of the scores of one label among those of the other, whatever
the order they came in.

## Main definitions

* `labelled`: Scores with their labels.
* `remaining`: What is still to be added to the area.

## Theorems

* `remaining_eq`: A round adds one term of it.
* `read_eq`: The loop ends with all of it added.
* `averagePrecision_eq`: The area is the average precision.
* `area_of_scores`: What the area is, what it does not depend on and where it lies.
-/

namespace ClaimTriage

namespace Evaluation

open Theory

/-- A score that is a number, with its label, as it is ranked. -/
def ranked (s : ℚ × Bool) : Score × Bool :=
  (some s.1, s.2)

/-- Scores with their labels. -/
def labelled (positives negatives : List ℚ) : List (ℚ × Bool) :=
  (positives.map fun s => (s, true)) ++ negatives.map fun s => (s, false)

/-- The scores that are left are in order, from the highest. -/
def Descending (rest : List (ℚ × Bool)) : Prop :=
  rest.Pairwise fun a b => b.1 ≤ a.1

/-- What a threshold adds to the area, `found` and `seen` having been counted before what is
    left. -/
def term (positiveCount : ℚ) (found seen : Nat) (rest : List (ℚ × Bool)) (t : ℚ) : ℚ :=
  ((rest.countP fun s => s.2 ∧ s.1 = t : Nat) : ℚ) / positiveCount *
    ((found + rest.countP fun s => s.2 ∧ t ≤ s.1 : Nat) /
      (seen + rest.countP fun s => t ≤ s.1 : Nat))

/-- What is still to be added to the area. -/
def remaining (positiveCount : ℚ) (found seen : Nat) (rest : List (ℚ × Bool)) : ℚ :=
  ∑ t ∈ (rest.map Prod.fst).toFinset, term positiveCount found seen rest t

section Rounds

variable {positiveCount t : ℚ} {found seen : Nat} {taken left rest : List (ℚ × Bool)}

/-- What a round leaves is below what it takes. -/
theorem lt_of_mem_dropWhile {label : Bool} (h : Descending ((t, label) :: rest)) :
    ∀ s ∈ ((t, label) :: rest).dropWhile (·.1 = t), s.1 < t := by
  intro s hs
  cases hleft : ((t, label) :: rest).dropWhile (·.1 = t) with
  | nil =>
      rw [hleft] at hs
      exact absurd hs List.not_mem_nil
  | cons first others =>
      have hsub := List.dropWhile_sublist (l := (t, label) :: rest) (·.1 = t)
      rw [hleft] at hs hsub
      -- The first that is left was not taken, so it is another score.
      have hfirst : first.1 ≠ t := by
        have hhead := List.head_dropWhile_not (fun s : ℚ × Bool => decide (s.1 = t))
          (l := (t, label) :: rest) (by rw [hleft]; exact List.cons_ne_nil _ _)
        simp only [hleft, List.head_cons] at hhead
        exact of_decide_eq_false hhead
      -- And none is above the first one.
      have hle : ∀ s ∈ (t, label) :: rest, s.1 ≤ t := by
        intro s hs
        rcases List.mem_cons.mp hs with rfl | hs
        · exact le_rfl
        · exact (List.pairwise_cons.mp h).1 s hs
      have hlt : first.1 < t := lt_of_le_of_ne (hle first (hsub.mem List.mem_cons_self)) hfirst
      rcases List.mem_cons.mp hs with rfl | hs
      · exact hlt
      · exact ((List.pairwise_cons.mp (h.sublist hsub)).1 s hs).trans_lt hlt

/-- The threshold of a round has the term of what the round takes. -/
theorem term_taken (htaken : ∀ s ∈ taken, s.1 = t) (hleft : ∀ s ∈ left, s.1 < t) :
    term positiveCount found seen (taken ++ left) t =
      (taken.countP Prod.snd : Nat) / positiveCount *
        ((found + taken.countP Prod.snd : Nat) / (seen + taken.length : Nat)) := by
  -- What is left is below the score, and counts for nothing at or above it.
  have hnone : ∀ p : ℚ × Bool → Prop, [DecidablePred p] → (∀ s, p s → t ≤ s.1) →
      left.countP (fun s => p s) = 0 := by
    intro p _ hp
    rw [List.countP_eq_zero]
    intro s hs hps
    exact absurd (hp s (of_decide_eq_true hps)) (not_le.mpr (hleft s hs))
  have hsame : taken.countP (fun s => s.2 ∧ s.1 = t) = taken.countP Prod.snd := by
    refine List.countP_congr fun s hs => ?_
    simp only [htaken s hs, and_true, Bool.decide_eq_true]
  have hleast : taken.countP (fun s => s.2 ∧ t ≤ s.1) = taken.countP Prod.snd := by
    refine List.countP_congr fun s hs => ?_
    simp only [htaken s hs, le_refl, and_true, Bool.decide_eq_true]
  have hall : taken.countP (fun s => t ≤ s.1) = taken.length :=
    List.countP_eq_length.mpr fun s hs => decide_eq_true (htaken s hs).ge
  unfold term
  rw [List.countP_append, List.countP_append, List.countP_append, hnone _ fun s h => h.2.ge,
    hnone _ fun s h => h.2, hnone _ fun s h => h, hsame, hleast, hall]
  simp only [add_zero]

/-- A lower threshold has the term of what the round leaves, past what it took. -/
theorem term_left {t' : ℚ} (htaken : ∀ s ∈ taken, s.1 = t) (hlt : t' < t) :
    term positiveCount found seen (taken ++ left) t' =
      term positiveCount (found + taken.countP Prod.snd) (seen + taken.length) left t' := by
  -- What was taken is at another score, and above it.
  have hsame : taken.countP (fun s => s.2 ∧ s.1 = t') = 0 := by
    rw [List.countP_eq_zero]
    intro s hs hst
    have heq := (of_decide_eq_true hst).2
    rw [htaken s hs] at heq
    exact absurd heq hlt.ne'
  have hleast : taken.countP (fun s => s.2 ∧ t' ≤ s.1) = taken.countP Prod.snd := by
    refine List.countP_congr fun s hs => ?_
    simp only [htaken s hs, hlt.le, and_true, Bool.decide_eq_true]
  have hall : taken.countP (fun s => t' ≤ s.1) = taken.length :=
    List.countP_eq_length.mpr fun s hs => decide_eq_true ((htaken s hs).symm ▸ hlt.le)
  unfold term
  rw [List.countP_append, List.countP_append, List.countP_append, hsame, hleast, hall, zero_add,
    add_assoc, add_assoc]

/-- A round adds the term of its threshold, and leaves those of the others. -/
theorem remaining_eq (hne : taken ≠ []) (htaken : ∀ s ∈ taken, s.1 = t)
    (hleft : ∀ s ∈ left, s.1 < t) :
    remaining positiveCount found seen (taken ++ left) =
      (taken.countP Prod.snd : Nat) / positiveCount *
        ((found + taken.countP Prod.snd : Nat) / (seen + taken.length : Nat)) +
      remaining positiveCount (found + taken.countP Prod.snd) (seen + taken.length) left := by
  -- The scores are the one that is taken and those that are left.
  have hvalues : ((taken ++ left).map Prod.fst).toFinset =
      insert t (left.map Prod.fst).toFinset := by
    rcases List.exists_mem_of_ne_nil _ hne with ⟨first, hfirst⟩
    ext s
    simp only [List.map_append, List.toFinset_append, Finset.mem_union, List.mem_toFinset,
      List.mem_map, Finset.mem_insert]
    refine or_congr_left ⟨?_, ?_⟩
    · rintro ⟨x, hx, rfl⟩
      exact htaken x hx
    · rintro rfl
      exact ⟨first, hfirst, htaken first hfirst⟩
  have hnot : t ∉ (left.map Prod.fst).toFinset := by
    rw [List.mem_toFinset, List.mem_map]
    rintro ⟨s, hs, heq⟩
    exact absurd heq (hleft s hs).ne
  unfold remaining
  rw [hvalues, Finset.sum_insert hnot, term_taken htaken hleft]
  refine congrArg _ (Finset.sum_congr rfl fun t' ht' => ?_)
  rw [List.mem_toFinset, List.mem_map] at ht'
  rcases ht' with ⟨s, hs, rfl⟩
  exact term_left htaken (hleft s hs)

/-! ### The loop -/

/-- One round, by what it takes and what it leaves. -/
theorem round_ranked {c : Curve} (hrest : c.rest = rest.map ranked)
    (hrecall : c.previousRecall = c.found / positiveCount)
    (htaken : rest.takeWhile (·.1 = t) = taken) (hleft : rest.dropWhile (·.1 = t) = left)
    (hne : taken ≠ []) :
    c.round exact positiveCount (some t) = .ok {
      rest := left.map ranked
      found := c.found + taken.countP Prod.snd
      seen := c.seen + taken.length
      area := c.area + (taken.countP Prod.snd : Nat) / positiveCount *
        ((c.found + taken.countP Prod.snd : Nat) / (c.seen + taken.length : Nat))
      previousRecall := (c.found + taken.countP Prod.snd : Nat) / positiveCount } := by
  have hsame : (sameScore (some t)) ∘ ranked = fun s : ℚ × Bool => decide (s.1 = t) := by
    funext s
    rfl
  -- Something was taken, so the precision is no division by nothing.
  have hseen : c.seen + taken.length ≠ 0 := by
    have hlength := List.length_pos_iff.mpr hne
    omega
  have hcount : (taken.map ranked).countP Prod.snd = taken.countP Prod.snd := by
    rw [List.countP_map]
    rfl
  unfold Curve.round
  rw [hrest, List.takeWhile_map, List.dropWhile_map, hsame, htaken, hleft]
  simp only [List.length_map, hcount, if_neg hseen, exact, id_eq, hrecall]
  congr 2
  push_cast
  ring

/-- Read to its end, the ranking adds all that is still to be added. -/
theorem read_eq {rounds : Nat} {c : Curve} (hrest : c.rest = rest.map ranked)
    (hdescending : Descending rest) (hrecall : c.previousRecall = c.found / positiveCount)
    (hrounds : rest.length < rounds) :
    Curve.read exact positiveCount rounds c =
      .ok (c.area + remaining positiveCount c.found c.seen rest) := by
  induction rounds generalizing c rest with
  | zero => exact absurd hrounds (Nat.not_lt_zero _)
  | succ rounds ih =>
      cases rest with
      -- Without scores left nothing is added to the area.
      | nil =>
          unfold Curve.read
          rw [hrest]
          simp only [List.map_nil, remaining, List.toFinset_nil, Finset.sum_empty, add_zero]
      -- One round takes all of one score, and what is left is shorter.
      | cons first rest =>
          rcases first with ⟨t, label⟩
          have htaken : ((t, label) :: rest).takeWhile (·.1 = t) =
              (t, label) :: rest.takeWhile (·.1 = t) :=
            List.takeWhile_cons_of_pos (decide_eq_true rfl)
          have hleft : ((t, label) :: rest).dropWhile (·.1 = t) = rest.dropWhile (·.1 = t) :=
            List.dropWhile_cons_of_pos (decide_eq_true rfl)
          have hsub : (rest.dropWhile (·.1 = t)).Sublist rest := List.dropWhile_sublist _
          have hround := round_ranked hrest hrecall htaken hleft (List.cons_ne_nil _ _)
          have hlength := hsub.length_le
          rw [List.length_cons] at hrounds
          unfold Curve.read
          rw [hrest, List.map_cons]
          simp only [ranked]
          rw [hround]
          refine (ih rfl (hdescending.sublist (hsub.trans (List.sublist_cons_self _ _))) rfl
            (by omega)).trans ?_
          have hbelow : ∀ s ∈ rest.dropWhile (·.1 = t), s.1 < t :=
            hleft ▸ lt_of_mem_dropWhile hdescending
          have hequal : ∀ s ∈ (t, label) :: rest.takeWhile (·.1 = t), s.1 = t := by
            intro s hs
            rw [← htaken] at hs
            have hequal := List.mem_takeWhile_imp hs
            exact of_decide_eq_true hequal
          -- What remains is the term of that score and what remains after it.
          have hsplit : (t, label) :: rest =
              ((t, label) :: rest.takeWhile (·.1 = t)) ++ rest.dropWhile (·.1 = t) := by
            rw [List.cons_append, List.takeWhile_append_dropWhile]
          rw [hsplit, remaining_eq (List.cons_ne_nil _ _) hequal hbelow]
          simp only [add_assoc]

end Rounds

/-! ### The area -/

section Area

variable {positives negatives : List ℚ}

theorem remaining_perm {positiveCount : ℚ} {found seen : Nat} {rest rest' : List (ℚ × Bool)}
    (h : rest.Perm rest') :
    remaining positiveCount found seen rest = remaining positiveCount found seen rest' := by
  unfold remaining
  refine Finset.sum_congr (List.toFinset_eq_of_perm _ _ (h.map _)) fun t _ => ?_
  unfold term
  rw [h.countP_eq, h.countP_eq, h.countP_eq]

/-- All that is to be added to begin with is the average precision. -/
theorem remaining_labelled :
    remaining positives.length 0 0 (labelled positives negatives) =
      Precision.averagePrecision positives negatives := by
  have hvalues : (labelled positives negatives).map Prod.fst = positives ++ negatives := by
    simp only [labelled, List.map_append, List.map_map, Function.comp_def, List.map_id']
  unfold remaining Precision.averagePrecision
  rw [hvalues]
  refine Finset.sum_congr rfl fun t _ => ?_
  -- What is labelled false is no positive.
  have hnone : negatives.countP (fun _ => false) = 0 :=
    List.countP_eq_zero.mpr fun _ _ => Bool.false_ne_true
  have hexact : (labelled positives negatives).countP (fun s => s.2 ∧ s.1 = t) =
      positives.count t := by
    simp only [labelled, List.countP_append, List.countP_map, Function.comp_def, true_and,
      Bool.false_eq_true, false_and, decide_false, hnone, add_zero, List.count]
    rfl
  have hfound : (labelled positives negatives).countP (fun s => s.2 ∧ t ≤ s.1) =
      Precision.atLeast t positives := by
    simp only [labelled, List.countP_append, List.countP_map, Function.comp_def, true_and,
      Bool.false_eq_true, false_and, decide_false, hnone, add_zero, Precision.atLeast]
  have hseen : (labelled positives negatives).countP (fun s => t ≤ s.1) =
      Precision.atLeast t (positives ++ negatives) := by
    simp only [labelled, List.countP_append, List.countP_map, Function.comp_def,
      Precision.atLeast]
  unfold term Precision.recallAt Precision.precisionAt
  rw [hexact, hfound, hseen, Nat.zero_add, Nat.zero_add]

/-- Scores that are numbers are ranked as numbers are. -/
theorem rankedScores_map :
    rankedScores (positives.map some) (negatives.map some) =
      ((labelled positives negatives).insertionSort fun a b => ¬ a.1 < b.1).map ranked := by
  have hmap : (positives.map some).map (fun s => (s, true)) ++
      (negatives.map some).map (fun s => (s, false)) =
      (labelled positives negatives).map ranked := by
    simp only [labelled, List.map_append, List.map_map, Function.comp_def, ranked]
  -- Sorting the scores as the program does is sorting them by their order.
  have hsort := List.map_insertionSort (fun a b : ℚ × Bool => ¬ a.1 < b.1)
    (fun a b : Score × Bool => ¬ a.1.Less b.1) ranked (labelled positives negatives)
    fun a _ b _ => Iff.rfl
  unfold rankedScores
  rw [hmap]
  exact hsort.symm

/-- The ranking is in order, from the highest. -/
theorem descending_insertionSort (l : List (ℚ × Bool)) :
    Descending (l.insertionSort fun a b => ¬ a.1 < b.1) := by
  have : Std.Total fun a b : ℚ × Bool => ¬ a.1 < b.1 :=
    ⟨fun a b => (le_total a.1 b.1).symm.imp not_lt.mpr not_lt.mpr⟩
  have : IsTrans (ℚ × Bool) fun a b => ¬ a.1 < b.1 :=
    ⟨fun a b c hab hbc => not_lt.mpr ((not_lt.mp hbc).trans (not_lt.mp hab))⟩
  exact (List.pairwise_insertionSort _ l).imp not_lt.mp

/-- In exact arithmetic the loop comes to the average precision of the scores. -/
theorem averagePrecision_eq (hpositives : positives ≠ []) (hnegatives : negatives ≠ []) :
    averagePrecision exact (positives.map some) (negatives.map some) =
      .ok (some (Precision.averagePrecision positives negatives)) := by
  have hne : ¬ (positives.map some = [] ∨ negatives.map some = []) := by
    rw [List.map_eq_nil_iff, List.map_eq_nil_iff]
    exact not_or.mpr ⟨hpositives, hnegatives⟩
  let sorted := (labelled positives negatives).insertionSort fun a b => ¬ a.1 < b.1
  have hranked : rankedScores (positives.map some) (negatives.map some) = sorted.map ranked :=
    rankedScores_map
  -- The rounds are one more than there are scores, so the curve is read to its end.
  have hread : Curve.read exact positives.length (sorted.length + 1)
      (Curve.start (sorted.map ranked)) =
      .ok (0 + remaining positives.length 0 0 sorted) :=
    read_eq rfl (descending_insertionSort _) (zero_div _).symm (Nat.lt_succ_self _)
  have hperm : sorted.Perm (labelled positives negatives) := List.perm_insertionSort _ _
  unfold averagePrecision
  simp only [if_neg hne, hranked, List.length_map]
  refine (congrArg (· >>= fun area => .ok (some area)) hread).trans ?_
  rw [remaining_perm hperm, remaining_labelled, zero_add]
  rfl

/-- The area under the curve: what it is a sum of, what it does not depend on, and where it
    lies. -/
theorem area_of_scores (hpositives : positives ≠ []) (hnegatives : negatives ≠ []) :
    ∃ area : ℚ,
      averagePrecision exact (positives.map some) (negatives.map some) = .ok (some area) ∧
      area = ∑ t ∈ (positives ++ negatives).toFinset,
        (positives.count t / positives.length : ℚ) *
          ((positives.countP fun s => t ≤ s : Nat) /
            ((positives ++ negatives).countP fun s => t ≤ s : Nat)) ∧
      (∀ positives' negatives' : List ℚ, positives'.Perm positives → negatives'.Perm negatives →
        averagePrecision exact (positives'.map some) (negatives'.map some) =
          .ok (some area)) ∧
      (∀ f : ℚ → ℚ, StrictMonoOn f {s | s ∈ positives ++ negatives} →
        averagePrecision exact ((positives.map f).map some) ((negatives.map f).map some) =
          .ok (some area)) ∧
      0 < area ∧ area ≤ 1 ∧
      (area = 1 ↔ ∀ p ∈ positives, ∀ n ∈ negatives, n < p) ∧
      ∀ t, (∀ s ∈ positives ++ negatives, s = t) →
        area = positives.length / (positives.length + negatives.length) := by
  refine ⟨Precision.averagePrecision positives negatives,
    averagePrecision_eq hpositives hnegatives, rfl, ?_, ?_,
    Precision.averagePrecision_pos hpositives, Precision.averagePrecision_le_one hpositives,
    Precision.averagePrecision_eq_one_iff hpositives,
    fun t ht => Precision.averagePrecision_of_forall_eq hpositives ht⟩
  · -- Neither list is empty in another order.
    intro positives' negatives' hp hn
    have hpositives' : positives' ≠ [] := by
      rintro rfl
      exact hpositives hp.nil_eq.symm
    have hnegatives' : negatives' ≠ [] := by
      rintro rfl
      exact hnegatives hn.nil_eq.symm
    rw [averagePrecision_eq hpositives' hnegatives', Precision.averagePrecision_perm hp hn]
  · intro f hf
    have hpositives' : positives.map f ≠ [] := fun h => hpositives (List.map_eq_nil_iff.mp h)
    have hnegatives' : negatives.map f ≠ [] := fun h => hnegatives (List.map_eq_nil_iff.mp h)
    rw [averagePrecision_eq hpositives' hnegatives', Precision.averagePrecision_map hf]

/-- One positive above and one below a negative: the area is five sixths. -/
theorem area_of_three :
    ([1, 3] : List ℚ) ≠ [] ∧ ([2] : List ℚ) ≠ [] ∧
      averagePrecision exact ([1, 3].map some) ([2].map some) = .ok (some (5 / 6)) := by
  rcases area_of_scores (List.cons_ne_nil (1 : ℚ) [3]) (List.cons_ne_nil (2 : ℚ) []) with
    ⟨area, harea, hsum, -⟩
  have hvalue : area = 5 / 6 := by
    rw [hsum]
    simp [List.count_cons, List.countP_cons]
    norm_num
  exact ⟨List.cons_ne_nil _ _, List.cons_ne_nil _ _, hvalue ▸ harea⟩

end Area

end Evaluation

end ClaimTriage
