import ClaimTriage.Evaluation.Answers
import ClaimTriage.Theory.Rounding
import Mathlib.Data.List.Dedup
import Mathlib.Data.List.Sort
import Mathlib.Data.List.TakeWhile

/-!
# Metrics

The arithmetic a set is scored with: counts of what was right, wrong and
missed, ranks, and the area under a precision-recall curve.

Numbers are rational and an operation gives what the machine's arithmetic makes
of its exact result (`Arithmetic`); in exact arithmetic that is the result.

The curve is read by a loop that takes all equal scores in one round. A score
that is not a number is not equal even to itself, so a round that begins with
one takes nothing: `read_ne_ok` is that reading such a list never comes to
an area, whether by a division by zero or by going round for ever, and
`exists_read` that reading any other does.

## Main definitions

* `Arithmetic`: What is made of exact results.
* `Counts`: True positives, false positives and false negatives.
* `fieldCounts`: One case's fields scored.
* `labelCounts`: One axis' answers scored per label.
* `macroAverage`: One metric per label, averaged.
* `hitAt`, `reciprocalRank`, `citationCounts`: How a ranked list is read.
* `averagePrecision`: The area under the precision-recall curve.

## Theorems

* `exists_read`: Scores that are numbers are read to an end.
* `read_ne_ok`: Scores one of which is none are not.
* `averagePrecision_ok_iff`: When there is an area, or nothing to have one.
* `resolves_iff`: A citation resolves by the last clause of its identity.
* `citationCounts_iff`: When that is by any.
-/

namespace ClaimTriage

namespace Evaluation

open Theory Text

/-- What the machine makes of exact results: of an operation, and of a sum it
    takes at once. -/
structure Arithmetic where
  float : ℚ → ℚ
  sum : List ℚ → ℚ

/-- Exact arithmetic. -/
def exact : Arithmetic where
  float := id
  sum := List.sum

/-- True positives, false positives and false negatives, added up as cases are
    scored. -/
structure Counts where
  truePositives : Nat
  falsePositives : Nat
  falseNegatives : Nat
  deriving DecidableEq

instance : Zero Counts := ⟨⟨0, 0, 0⟩⟩

instance : Add Counts where
  add a b := {
    truePositives := a.truePositives + b.truePositives
    falsePositives := a.falsePositives + b.falsePositives
    falseNegatives := a.falseNegatives + b.falseNegatives }

/-- A count under a name, raised. -/
def bump (counted : List (Str × Counts)) (name : Str) (by_ : Counts) : List (Str × Counts) :=
  counted.map fun e => if e.1 = name then (e.1, e.2 + by_) else e

section Scores

variable (A : Arithmetic)

/-- A proportion of two counts, and zero when there is nothing to be a proportion
    of. -/
def ratio (numerator denominator : Nat) : ℚ :=
  if denominator = 0 then 0 else A.float (numerator / denominator)

/-- Of what was predicted, the share that was right. -/
def Counts.precision (c : Counts) : ℚ :=
  ratio A c.truePositives (c.truePositives + c.falsePositives)

/-- Of what the cases state, the share that was found. -/
def Counts.recall (c : Counts) : ℚ :=
  ratio A c.truePositives (c.truePositives + c.falseNegatives)

/-- The harmonic mean of the two. -/
def Counts.f1 (c : Counts) : ℚ :=
  ratio A (2 * c.truePositives) (2 * c.truePositives + c.falsePositives + c.falseNegatives)

/-- One field scored, of a case that states it. -/
def fieldCount (compare : Scalar → Scalar → Bool) (truth answer : Scalar) : Counts :=
  if truth = .none then
    -- The case asserts this field is absent: a value here was invented.
    if answer = .none then 0 else ⟨0, 1, 1⟩
  else if answer = .none then ⟨0, 0, 1⟩
  else if compare truth answer then ⟨1, 0, 0⟩
  else ⟨0, 1, 1⟩

/-- One case's fields scored: what was found, what was wrong, and what was
    missed. A field left out is one answered with nothing. -/
def fieldCounts (compare : Scalar → Scalar → Bool) (expected predicted : List (Str × Scalar)) :
    Counts :=
  expected.foldl (fun counts e =>
    counts + fieldCount compare e.2 ((predicted.lookup e.1).getD .none)) 0

/-- One axis' answers scored per label: the truth in the pair, and the name
    answered, if any. -/
def labelCounts (pairs : List (Str × Option Str)) : List (Str × Counts) :=
  pairs.foldl (fun counted (truth, answered) =>
      if answered = some truth then bump counted truth ⟨1, 0, 0⟩
      else
        -- A name the cases never label with is no label here.
        let missed := bump counted truth ⟨0, 0, 1⟩
        match answered with
        | none => missed
        | some name => bump missed name ⟨0, 1, 0⟩)
    ((pairs.map Prod.fst).dedup.map fun label => (label, 0))

/-- One metric per label, averaged over the labels. -/
def macroAverage (counted : List (Str × Counts)) (metric : Counts → ℚ) : ℚ :=
  if counted = [] then 0
  else A.float (A.sum (counted.map fun e => metric e.2) / counted.length)

/-- The clause identities of a list, in the order they appear. -/
def identities (clauses : List ClauseRef) : List (Str × Str) :=
  clauses.map ClauseRef.identity

/-- Whether any expected clause is among the first so many a retrieval
    returned. -/
def hitAt (ranked expected : List ClauseRef) (k : Nat) : Bool :=
  (identities (ranked.take k)).any fun i => i ∈ identities expected

/-- One over the rank of the first expected clause, the first rank given, or
    zero when none was retrieved. -/
def reciprocalRankFrom (expected : List ClauseRef) : Nat → List ClauseRef → ℚ
  | _, [] => 0
  | rank, clause :: rest =>
      if clause.identity ∈ identities expected then A.float (1 / rank)
      else reciprocalRankFrom expected (rank + 1) rest

/-- One over the rank of the first expected clause. -/
def reciprocalRank (ranked expected : List ClauseRef) : ℚ :=
  reciprocalRankFrom A expected 1 ranked

/-- Whether a citation resolves: the last clause retrieved under its identity is
    on its page, when both carry one. -/
def resolves (retrieved : List ClauseRef) (citation : ClauseRef) : Bool :=
  match retrieved.reverse.find? fun clause => clause.identity = citation.identity with
  | none => false
  | some found => citation.page = none ∨ found.page = none ∨ citation.page = found.page

/-- How many citations resolved to a clause of the retrieved list, and how many
    there were. -/
def citationCounts (retrieved cited : List ClauseRef) : Nat × Nat :=
  (cited.countP (resolves retrieved), cited.length)

/-- A score, or none that is not a number. -/
abbrev Score := Option ℚ

/-- Two scores are equal: one that is not a number equals none. -/
def Score.Same : Score → Score → Prop
  | some a, some b => a = b
  | _, _ => False

instance (a b : Score) : Decidable (a.Same b) :=
  match a, b with
  | some a, some b => inferInstanceAs (Decidable (a = b))
  | none, _ => isFalse id
  | some _, none => isFalse id

/-- A scored case is scored the same. -/
def sameScore (threshold : Score) (s : Score × Bool) : Bool :=
  Score.Same s.1 threshold

/-- The first score is less than the second: no score is less than one that is
    not a number, or greater. -/
def Score.Less : Score → Score → Prop
  | some a, some b => a < b
  | _, _ => False

instance (a b : Score) : Decidable (a.Less b) :=
  match a, b with
  | some a, some b => inferInstanceAs (Decidable (a < b))
  | none, _ => isFalse id
  | some _, none => isFalse id

/-- Where the reading of the curve stands: what is left of the ranking, what was
    found and seen of it, and the area under what was read. -/
structure Curve where
  rest : List (Score × Bool)
  found : Nat
  seen : Nat
  area : ℚ
  previousRecall : ℚ

/-- Where the reading of a ranking begins. -/
def Curve.start (ranked : List (Score × Bool)) : Curve where
  rest := ranked
  found := 0
  seen := 0
  area := 0
  previousRecall := 0

/-- One round: all of the scores equal to the first are one step of the
    curve. -/
def Curve.round (positiveCount : ℚ) (threshold : Score) (c : Curve) : Except Raised Curve :=
  let taken := c.rest.takeWhile (sameScore threshold)
  let found := c.found + taken.countP Prod.snd
  let seen := c.seen + taken.length
  let recalled := A.float (found / positiveCount)
  if seen = 0 then .error .zeroDivision
  else .ok {
    rest := c.rest.dropWhile (sameScore threshold)
    found := found
    seen := seen
    area := A.float (c.area + A.float (A.float (recalled - c.previousRecall) *
      A.float (found / seen)))
    previousRecall := recalled }

/-- Rounds until nothing is left of the ranking, so many of them at most. -/
def Curve.read (positiveCount : ℚ) : Nat → Curve → Except Raised ℚ
  | 0, _ => .error .endless
  | rounds + 1, c =>
      match c.rest with
      | [] => .ok c.area
      | (threshold, _) :: _ => do
          let next ← c.round A positiveCount threshold
          Curve.read positiveCount rounds next

/-- Scores with their labels from the highest to the lowest, equal ones in the
    order they came in. -/
def rankedScores (positives negatives : List Score) : List (Score × Bool) :=
  ((positives.map fun s => (s, true)) ++ (negatives.map fun s => (s, false))).insertionSort
    fun a b => ¬ a.1.Less b.1

/-- The area under the precision-recall curve of a score against a binary label,
    or none when there is nothing to rank one against the other. Every round
    takes one score at least, where scores are numbers, so as many rounds as
    there are scores will do, and one to see that none is left. -/
def averagePrecision (positives negatives : List Score) : Except Raised (Option ℚ) :=
  if positives = [] ∨ negatives = [] then .ok none
  else do
    let ranked := rankedScores positives negatives
    let area ← Curve.read A (A.float positives.length) (ranked.length + 1)
      (Curve.start ranked)
    return some area

end Scores

section Reading

variable {A : Arithmetic} {positiveCount : ℚ}

variable (positiveCount) in
/-- A round that begins with a number takes one score at least, and leaves of
    the ranking only what was in it. -/
theorem exists_round {c : Curve} {q : ℚ} {label : Bool} {rest : List (Score × Bool)}
    (hrest : c.rest = (some q, label) :: rest) :
    ∃ next, c.round A positiveCount (some q) = .ok next ∧ next.rest.length < c.rest.length ∧
      ∀ s ∈ next.rest, s ∈ c.rest := by
  -- A number is the same score as itself, so its round takes it.
  have hsame : sameScore (some q) (some q, label) = true := decide_eq_true rfl
  have htaken : c.rest.takeWhile (sameScore (some q)) =
      (some q, label) :: rest.takeWhile (sameScore (some q)) := by
    rw [hrest, List.takeWhile_cons_of_pos hsame]
  have hleft : c.rest.dropWhile (sameScore (some q)) = rest.dropWhile (sameScore (some q)) := by
    rw [hrest, List.dropWhile_cons_of_pos hsame]
  have hsub : (rest.dropWhile (sameScore (some q))).Sublist rest :=
    List.dropWhile_sublist _
  unfold Curve.round
  simp only [htaken, hleft, List.length_cons]
  rw [if_neg (by omega), hrest]
  refine ⟨_, rfl, ?_, fun s hs => List.mem_cons_of_mem _ (hsub.mem hs)⟩
  rw [List.length_cons]
  exact Nat.lt_succ_of_le hsub.length_le

variable (positiveCount) in
/-- Scores that are numbers are read to an end. -/
theorem exists_read {rounds : Nat} {c : Curve} (hnum : ∀ s ∈ c.rest, s.1 ≠ none)
    (hlen : c.rest.length < rounds) : ∃ area, Curve.read A positiveCount rounds c = .ok area := by
  induction rounds generalizing c with
  | zero => exact absurd hlen (Nat.not_lt_zero _)
  | succ rounds ih =>
      unfold Curve.read
      split
      · exact ⟨c.area, rfl⟩
      · rename_i threshold label rest hrest
        cases threshold with
        | none =>
            have hmem : ((none : Score), label) ∈ c.rest := hrest ▸ List.mem_cons_self
            exact absurd rfl (hnum _ hmem)
        | some q =>
            -- The round succeeds and leaves less of the ranking.
            rcases exists_round (A := A) positiveCount hrest with
              ⟨next, hround, hless, hsub⟩
            rw [hround]
            exact ih (fun s hs => hnum s (hsub s hs)) (by omega)

/-- Scores one of which is not a number are never read to an end, however many
    rounds are made. -/
theorem read_ne_ok {rounds : Nat} {c : Curve} (hnan : ∃ s ∈ c.rest, s.1 = none) (area : ℚ) :
    Curve.read A positiveCount rounds c ≠ .ok area := by
  induction rounds generalizing c with
  | zero => exact nofun
  | succ rounds ih =>
      rcases hnan with ⟨s, hs, hnone⟩
      unfold Curve.read
      split
      · rename_i hrest
        rw [hrest] at hs
        exact absurd hs List.not_mem_nil
      · rename_i threshold label rest hrest
        unfold Curve.round
        simp only
        split
        · exact nofun
        · -- A round takes no score that is not a number, so it is still there.
          refine ih ⟨s, ?_, hnone⟩
          rw [← List.takeWhile_append_dropWhile (l := c.rest) (p := sameScore threshold)] at hs
          rcases List.mem_append.mp hs with htaken | hleft
          · have htake : sameScore threshold s = true := List.mem_takeWhile_imp htaken
            have hsame : Score.Same s.1 threshold := of_decide_eq_true htake
            rw [hnone] at hsame
            exact absurd hsame id
          · exact hleft

theorem mem_rankedScores {positives negatives : List Score} {s : Score × Bool} :
    s ∈ rankedScores positives negatives ↔
      (s.2 = true ∧ s.1 ∈ positives) ∨ (s.2 = false ∧ s.1 ∈ negatives) := by
  rcases s with ⟨score, label⟩
  unfold rankedScores
  rw [(List.perm_insertionSort _ _).mem_iff, List.mem_append, List.mem_map, List.mem_map]
  constructor
  · rintro (⟨t, ht, heq⟩ | ⟨t, ht, heq⟩)
    · cases heq
      exact Or.inl ⟨rfl, ht⟩
    · cases heq
      exact Or.inr ⟨rfl, ht⟩
  · rintro (⟨hlabel, ht⟩ | ⟨hlabel, ht⟩)
    · exact Or.inl ⟨score, ht, Prod.ext rfl hlabel.symm⟩
    · exact Or.inr ⟨score, ht, Prod.ext rfl hlabel.symm⟩

/-- An area is come to unless there is something to rank and a score that is not
    a number among it. -/
theorem averagePrecision_ok_iff {positives negatives : List Score} :
    (∃ area, averagePrecision A positives negatives = .ok area) ↔
      (positives = [] ∨ negatives = [] ∨ none ∉ positives ++ negatives) := by
  unfold averagePrecision
  by_cases hempty : positives = [] ∨ negatives = []
  · rw [if_pos hempty]
    exact ⟨fun _ => hempty.imp_right Or.inl, fun _ => ⟨none, rfl⟩⟩
  · rw [if_neg hempty]
    rw [not_or] at hempty
    simp only [hempty.1, hempty.2, false_or]
    constructor
    · rintro ⟨area, harea⟩ hnan
      -- The score that is not a number is in the ranking, so that is not read.
      have hin : ∃ s ∈ rankedScores positives negatives, s.1 = none := by
        rcases List.mem_append.mp hnan with h | h
        · exact ⟨(none, true), mem_rankedScores.mpr (Or.inl ⟨rfl, h⟩), rfl⟩
        · exact ⟨(none, false), mem_rankedScores.mpr (Or.inr ⟨rfl, h⟩), rfl⟩
      cases hread : Curve.read A (A.float positives.length)
          ((rankedScores positives negatives).length + 1)
          (Curve.start (rankedScores positives negatives)) with
      | ok a => exact read_ne_ok hin a hread
      | error e =>
          rw [hread] at harea
          cases harea
    · intro hnum
      have hall : ∀ s ∈ rankedScores positives negatives, s.1 ≠ none := by
        intro s hs hnone
        refine hnum ?_
        rw [← hnone, List.mem_append]
        exact (mem_rankedScores.mp hs).imp And.right And.right
      have hread : ∃ area, Curve.read A (A.float positives.length)
          ((rankedScores positives negatives).length + 1)
          (Curve.start (rankedScores positives negatives)) = .ok area :=
        exists_read _ hall (Nat.lt_succ_self _)
      rcases hread with ⟨area, hread⟩
      rw [hread]
      exact ⟨some area, rfl⟩

/-! ### Citations -/

/-- A citation agrees with a clause: it is the same clause, on the same page when both carry
    one. -/
def ClauseRef.Agrees (citation clause : ClauseRef) : Prop :=
  clause.identity = citation.identity ∧
    (citation.page = none ∨ clause.page = none ∨ citation.page = clause.page)

instance (citation clause : ClauseRef) : Decidable (citation.Agrees clause) :=
  inferInstanceAs (Decidable (_ ∧ _))

/-- The last clause of a list that has a citation's identity agrees with it. -/
def LastAgrees (retrieved : List ClauseRef) (citation : ClauseRef) : Prop :=
  ∃ before last after, retrieved = before ++ last :: after ∧ citation.Agrees last ∧
    ∀ clause ∈ after, clause.identity ≠ citation.identity

/-- The last clause of an identity, where there is one. -/
theorem find?_reverse_eq_some_iff {retrieved : List ClauseRef} {identity : Str × Str}
    {last : ClauseRef} :
    retrieved.reverse.find? (fun clause => clause.identity = identity) = some last ↔
      last.identity = identity ∧ ∃ before after, retrieved = before ++ last :: after ∧
        ∀ clause ∈ after, clause.identity ≠ identity := by
  rw [List.find?_eq_some_iff_append, decide_eq_true_eq]
  refine and_congr_right fun _ => ?_
  constructor
  · -- What comes after the last one is what the search passes over from the end.
    rintro ⟨after, before, hsplit, hafter⟩
    refine ⟨before.reverse, after.reverse, ?_, fun clause hclause => ?_⟩
    · rw [← List.reverse_reverse retrieved, hsplit, List.reverse_append, List.reverse_cons,
        List.append_assoc, List.singleton_append]
    · simpa using hafter clause (List.mem_reverse.mp hclause)
  · rintro ⟨before, after, rfl, hafter⟩
    refine ⟨after.reverse, before.reverse, ?_, fun clause hclause => ?_⟩
    · rw [List.reverse_append, List.reverse_cons, List.append_assoc, List.singleton_append]
    · simpa using hafter clause (List.mem_reverse.mp hclause)

/-- A citation resolves exactly when the last clause of its identity agrees with it. -/
theorem resolves_iff {retrieved : List ClauseRef} {citation : ClauseRef} :
    resolves retrieved citation = true ↔ LastAgrees retrieved citation := by
  unfold resolves LastAgrees
  constructor
  · intro h
    split at h
    · cases h
    · rename_i found hfind
      rcases find?_reverse_eq_some_iff.mp hfind with ⟨hsame, before, after, hsplit, hafter⟩
      exact ⟨before, found, after, hsplit, ⟨hsame, of_decide_eq_true h⟩, hafter⟩
  · rintro ⟨before, last, after, hsplit, ⟨hsame, hpage⟩, hafter⟩
    rw [find?_reverse_eq_some_iff.mpr ⟨hsame, before, after, hsplit, hafter⟩]
    exact decide_eq_true hpage

/-- What agrees last agrees. -/
theorem exists_agrees_of_last {retrieved : List ClauseRef} {citation : ClauseRef}
    (h : LastAgrees retrieved citation) : ∃ clause ∈ retrieved, citation.Agrees clause := by
  rcases h with ⟨before, last, after, rfl, hagrees, _⟩
  exact ⟨last, List.mem_append_right _ List.mem_cons_self, hagrees⟩

/-- Two counts are equal where one counts no more than the other, exactly when it counts no
    less. -/
theorem countP_eq_iff {α : Type} {p q : α → Bool} {l : List α}
    (h : ∀ a ∈ l, p a = true → q a = true) :
    l.countP p = l.countP q ↔ ∀ a ∈ l, q a = true → p a = true := by
  induction l with
  | nil => simp
  | cons a l ih =>
      rw [List.forall_mem_cons] at h ⊢
      rw [← ih h.2, List.countP_cons, List.countP_cons]
      have hle : l.countP p ≤ l.countP q := List.countP_mono_left h.2
      cases hp : p a <;> cases hq : q a
      · simp
      · simp only [Bool.false_eq_true, if_false, if_true, true_implies, false_and, iff_false]
        omega
      · exact absurd (h.1 hp) (by simp [hq])
      · simp

/-- The citations that resolve are those that agree with some clause that was retrieved,
    exactly when each of these agrees with the last one of its identity. -/
theorem citationCounts_iff (retrieved cited : List ClauseRef) :
    citationCounts retrieved cited =
        (cited.countP fun citation => ∃ clause ∈ retrieved, citation.Agrees clause, cited.length) ↔
      ∀ citation ∈ cited, (∃ clause ∈ retrieved, citation.Agrees clause) →
        LastAgrees retrieved citation := by
  unfold citationCounts
  rw [Prod.mk.injEq, and_iff_left rfl, countP_eq_iff]
  · simp only [decide_eq_true_eq, resolves_iff]
  · intro citation _ hresolves
    exact decide_eq_true (exists_agrees_of_last (resolves_iff.mp hresolves))

/-- A citation of the first of two pages a clause was retrieved with. -/
theorem not_citationCounts_pages :
    ¬ ∀ retrieved cited : List ClauseRef, citationCounts retrieved cited =
      (cited.countP fun citation => ∃ clause ∈ retrieved, citation.Agrees clause,
        cited.length) := by
  intro h
  have hpages := h [⟨[], [], some 1, by simp⟩, ⟨[], [], some 2, by simp⟩]
    [⟨[], [], some 1, by simp⟩]
  exact absurd hpages (by decide)

end Reading

end Evaluation

end ClaimTriage
