import ClaimTriage.Api.Surface

/-!
# Asking Again

What a refused caller can make of the answer. A refused take writes down when it was,
and what had come back until then; a later take finds what it would have found anyway,
since what comes back over two stretches is what comes back over both
(`refill_take_of_refused`). So the takes that are refused can be left out of a run, and
the others are answered as they were.

It follows that a wait is exact, however often the caller asks before it is over: what
is missing to a token has come back when it has passed, and no earlier.

## Main definitions

* `Bucket.logged`: Takes with what they were answered.
* `Bucket.Thinned`: A log without some of the takes that were refused.

## Theorems

* `Bucket.refill_take_of_refused`: A refused take leaves what a later one finds.
* `Bucket.logged_of_thinned`: A run without takes that were refused.
* `Bucket.passed_after_iff`: A take is admitted when the wait has passed.
* `retryAfter_of_screened`: What the boundary tells a caller to wait.
* `refused_unseen`: A refusal changes nothing a caller sees, and its wait is exact.
-/

namespace ClaimTriage

open Theory Text Recency

namespace Bucket

/-- Takes at a list of instants, each with what it was answered. -/
def logged (limit : RateLimit) (b : Bucket) (instants : List ℚ) :
    List (ℚ × Option Admission) :=
  instants.zip (answers limit b instants)

/-- The second log is the first without some of the takes that were refused. -/
inductive Thinned : List (ℚ × Option Admission) → List (ℚ × Option Admission) → Prop
  | nil : Thinned [] []
  | keep (e : ℚ × Option Admission) {log rest : List (ℚ × Option Admission)} :
      Thinned log rest → Thinned (e :: log) (e :: rest)
  | drop {e : ℚ × Option Admission} {log rest : List (ℚ × Option Admission)} :
      ¬ Passed e.2 → Thinned log rest → Thinned (e :: log) rest

section Refused

variable {limit : RateLimit} {now t : ℚ} {b b' : Bucket}

theorem passed_take_iff : Passed (b.take limit now).1 ↔ 1 ≤ (b.refill limit now).tokens := by
  by_cases h : 1 ≤ (b.refill limit now).tokens
  · exact iff_of_true (take_of_le h).1 h
  · exact iff_of_false (take_of_lt (not_le.mp h)).1 h

theorem not_passed_of_refused {answer : Option Admission} {a : Admission} (h : answer = some a)
    (hrefused : a.verdict.passed = false) : ¬ Passed answer := by
  rintro ⟨a', ha', hpassed⟩
  cases h.symm.trans ha'
  rw [hrefused] at hpassed
  cases hpassed

/-- A take depends on what the bucket holds at its instant only. -/
theorem take_congr (h : b.refill limit now = b'.refill limit now) :
    b.take limit now = b'.take limit now := by
  unfold take
  rw [h]

theorem logged_cons (b : Bucket) (now : ℚ) (instants : List ℚ) :
    logged limit b (now :: instants) =
      (now, (b.take limit now).1) :: logged limit (b.take limit now).2 instants :=
  rfl

/-- A refused take leaves what a later one finds. -/
theorem refill_take_of_refused (hburst : 1 ≤ limit.burst) (hfilled : b.filledAt ≤ now)
    (hrefused : ¬ Passed (b.take limit now).1) (ht : now ≤ t) :
    (b.take limit now).2.refill limit t = b.refill limit t := by
  rw [passed_take_iff, not_le] at hrefused
  have hone : (1 : ℚ) ≤ limit.burst := by exact_mod_cast hburst
  rw [(take_of_lt hrefused).2]
  unfold refill at hrefused ⊢
  simp only [Bucket.mk.injEq, and_true] at hrefused ⊢
  -- A bucket without a token is not full, so nothing that came back was lost.
  have hnotfull : min (limit.burst : ℚ)
      (b.tokens + max (now - b.filledAt) 0 * limit.refillPerSecond) =
      b.tokens + (now - b.filledAt) * limit.refillPerSecond := by
    rw [max_eq_left (by linarith)] at hrefused ⊢
    exact min_eq_right ((min_lt_iff.mp hrefused).resolve_left (not_lt.mpr hone)
      |>.le.trans hone)
  rw [hnotfull, max_eq_left (by linarith), max_eq_left (by linarith)]
  congr 1
  ring

theorem filledAt_feed_le {instants : List ℚ} (hfilled : b.filledAt ≤ t)
    (h : ∀ u ∈ instants, u ≤ t) : (b.feed limit instants).filledAt ≤ t := by
  induction instants generalizing b with
  | nil => exact hfilled
  | cons u rest ih =>
      refine ih (b := (b.take limit u).2) ?_ fun v hv => h v (List.mem_cons_of_mem _ hv)
      rw [filledAt_take]
      exact h u List.mem_cons_self

/-- Refused takes leave what a later one finds. -/
theorem refill_feed_of_refused (hburst : 1 ≤ limit.burst) {between : List ℚ}
    (hfilled : b.filledAt ≤ now) (hsorted : (now :: between).Pairwise (· ≤ ·))
    (hrefused : ∀ answer ∈ answers limit b between, ¬ Passed answer)
    (ht : ∀ u ∈ now :: between, u ≤ t) :
    (b.feed limit between).refill limit t = b.refill limit t := by
  induction between generalizing b now with
  | nil => rfl
  | cons u rest ih =>
      have hnow : now ≤ u := List.rel_of_pairwise_cons hsorted List.mem_cons_self
      have hfirst : ¬ Passed (b.take limit u).1 := hrefused _ List.mem_cons_self
      have hrest := @ih u (b.take limit u).2 filledAt_take.le
        (List.Pairwise.of_cons hsorted) (fun answer h => hrefused answer (List.mem_cons_of_mem _ h))
        fun v hv => ht v (List.mem_cons_of_mem _ hv)
      exact hrest.trans (refill_take_of_refused hburst (hfilled.trans hnow) hfirst
        (ht u (List.mem_cons_of_mem _ List.mem_cons_self)))

/-- Without some of the takes that were refused, the others are answered as they were. -/
theorem logged_of_thinned (hburst : 1 ≤ limit.burst) {instants : List ℚ}
    {rest : List (ℚ × Option Admission)} (hfilled : b.filledAt ≤ now)
    (hsorted : (now :: instants).Pairwise (· ≤ ·))
    (hsame : ∀ t, now ≤ t → b.refill limit t = b'.refill limit t)
    (h : Thinned (logged limit b instants) rest) : logged limit b' (rest.map Prod.fst) = rest := by
  induction instants generalizing b b' now rest with
  | nil =>
      cases h
      rfl
  | cons u instants ih =>
      have hu : now ≤ u := List.rel_of_pairwise_cons hsorted List.mem_cons_self
      have hlater := List.Pairwise.of_cons hsorted
      rw [logged_cons] at h
      cases h with
      | keep _ hrest =>
          -- Both buckets hold the same where the take is kept, and after it.
          rw [List.map_cons, logged_cons, ← take_congr (hsame u hu)]
          exact congrArg _ (ih filledAt_take.le hlater (fun _ _ => rfl) hrest)
      | drop hrefused hrest =>
          refine ih filledAt_take.le hlater (fun t ht => ?_) hrest
          rw [refill_take_of_refused hburst (hfilled.trans hu) hrefused ht]
          exact hsame t (hu.trans ht)

theorem wait_of_refused (hrefill : 0 < limit.refillPerSecond) {a : Admission}
    (h : (b.refill limit now).tokens < 1) (ha : (b.take limit now).1 = some a) :
    a.waitSeconds = (1 - (b.refill limit now).tokens) / limit.refillPerSecond := by
  unfold take at ha
  simp only [if_neg (not_le.mpr h), if_neg hrefill.ne', Option.some.injEq] at ha
  rw [← ha]

/-- What is missing to a token at a refusal has come back when its wait has passed, and no
    earlier. -/
theorem passed_iff_wait_le (hburst : 1 ≤ limit.burst) (hrefill : 0 < limit.refillPerSecond)
    {a : Admission} {d : ℚ} (hfilled : b.filledAt ≤ now) (hd : 0 ≤ d)
    (ha : (b.take limit now).1 = some a) (hrefused : a.verdict.passed = false) :
    1 ≤ (b.refill limit (now + d)).tokens ↔ a.waitSeconds ≤ d := by
  have hnot := not_passed_of_refused ha hrefused
  have hone : (1 : ℚ) ≤ limit.burst := by exact_mod_cast hburst
  have hlt : (b.refill limit now).tokens < 1 := not_le.mp (passed_take_iff.not.mp hnot)
  have htokens : (b.refill limit (now + d)).tokens =
      min (limit.burst : ℚ) ((b.refill limit now).tokens + d * limit.refillPerSecond) := by
    rw [← refill_take_of_refused hburst hfilled hnot (by linarith), (take_of_lt hlt).2]
    change min _ ((b.refill limit now).tokens + max (now + d - now) 0 * _) = _
    rw [add_sub_cancel_left, max_eq_left hd]
  rw [htokens, wait_of_refused hrefill hlt ha, le_min_iff, and_iff_right hone,
    div_le_iff₀ hrefill, sub_le_iff_le_add']

/-- However often it is asked in between, a take after a refusal is admitted exactly if the
    wait has passed. -/
theorem passed_after_iff (hburst : 1 ≤ limit.burst) (hrefill : 0 < limit.refillPerSecond)
    {a : Admission} {d : ℚ} {between : List ℚ} (hfilled : b.filledAt ≤ now)
    (hsorted : (now :: (between ++ [now + d])).Pairwise (· ≤ ·))
    (ha : (b.take limit now).1 = some a) (hrefused : a.verdict.passed = false)
    (hnone : ∀ answer ∈ answers limit (b.take limit now).2 between, ¬ Passed answer) :
    Passed (((b.take limit now).2.feed limit between).take limit (now + d)).1 ↔
      a.waitSeconds ≤ d := by
  rcases List.pairwise_cons.mp hsorted with ⟨hfirst, hlater⟩
  have hd : now ≤ now + d := hfirst _ (List.mem_append_right _ (List.mem_singleton_self _))
  have hlast : ∀ u ∈ now :: between, u ≤ now + d := by
    intro u hu
    rcases List.mem_cons.mp hu with rfl | hu
    · exact hd
    · exact (List.pairwise_append.mp hlater).2.2 u hu _ (List.mem_singleton_self _)
  have hbetween : (now :: between).Pairwise (· ≤ ·) :=
    hsorted.sublist ((List.sublist_append_left _ _).cons_cons _)
  rw [passed_take_iff, refill_feed_of_refused hburst filledAt_take.le hbetween hnone hlast,
    refill_take_of_refused hburst hfilled (not_passed_of_refused ha hrefused) hd,
    passed_iff_wait_le hburst hrefill hfilled (by linarith) ha hrefused]

end Refused

end Bucket

namespace Surface

open Boundary Bucket

section Screened

variable {app : App} {request : Request} {buckets : Table Str Bucket}

theorem retryAfter_of_answer {refused : Refused} {retryAfter retryAfter' : Option Int}
    {statusCode : Nat} {error : BoundaryError}
    (h : answer refused retryAfter = .failed statusCode error retryAfter') :
    retryAfter = retryAfter' := by
  unfold answer refusal at h
  split at h
  · cases h
    rfl
  · cases h

/-- A refusal that tells the caller when to ask again is the rate limit's, and what it tells
    him is long enough. -/
theorem retryAfter_of_screened {statusCode : Nat} {error : BoundaryError} {retryAfter : Int}
    (h : (screenSubmissions app request buckets).1 =
      .ok (some (.failed statusCode error (some retryAfter)))) :
    ∃ a, (Limiters.take app.guard.rateLimit defaultKeys (call request) buckets).1 = some a ∧
      a.verdict.passed = false ∧ a.waitSeconds ≤ retryAfter := by
  unfold screenSubmissions at h
  cases htake : (Limiters.take app.guard.rateLimit defaultKeys (call request) buckets).1 with
  | none =>
      simp only [htake] at h
      cases h
  | some a =>
      simp only [htake] at h
      split at h
      · rename_i hrefused
        refine ⟨a, rfl, Bool.eq_false_of_not_eq_true hrefused, ?_⟩
        have hsent := retryAfter_of_answer (Option.some.inj (Except.ok.inj h))
        rw [← Option.some.inj hsent, Int.cast_max]
        exact (Int.le_ceil _).trans (le_max_left _ _)
      · -- What is refused for its size is not told when to ask again.
        split at h
        · cases h
        · split at h
          · cases retryAfter_of_answer (Option.some.inj (Except.ok.inj h))
          · cases h

end Screened

/-- Leaving out refused takes changes the answer to no other. A take after a refusal, with none
    admitted in between, is admitted exactly if the wait has passed; so a caller who was told
    when to ask again, and is let in by nothing before, is let in then. -/
theorem refused_unseen {limit : RateLimit} (hburst : 1 ≤ limit.burst)
    (hrefill : 0 < limit.refillPerSecond) (created : ℚ) :
    (∀ (instants : List ℚ) (rest : List (ℚ × Option Admission)),
      (created :: instants).Pairwise (· ≤ ·) →
      Thinned (logged limit (Bucket.new limit created) instants) rest →
      logged limit (Bucket.new limit created) (rest.map Prod.fst) = rest) ∧
    (∀ (past between : List ℚ) (t d : ℚ) (a : Admission),
      (created :: (past ++ t :: (between ++ [t + d]))).Pairwise (· ≤ ·) →
      (((Bucket.new limit created).feed limit past).take limit t).1 = some a →
      a.verdict.passed = false →
      (∀ answer ∈ answers limit ((Bucket.new limit created).feed limit (past ++ [t])) between,
        ¬ Passed answer) →
      (Passed (((Bucket.new limit created).feed limit (past ++ t :: between)).take limit
        (t + d)).1 ↔ a.waitSeconds ≤ d)) ∧
    ∀ (app : App) (request : Request) (buckets : Table Str Bucket) (b : Bucket)
      (statusCode : Nat) (error : BoundaryError) (retryAfter : Int), app.guard.rateLimit = limit →
      (get buckets (caller request)).getD (Bucket.new limit request.opened) = b →
      b.filledAt ≤ request.now →
      (screenSubmissions app request buckets).1 =
        .ok (some (.failed statusCode error (some retryAfter))) →
      ∀ (between : List ℚ) (d : ℚ),
        (request.now :: (between ++ [request.now + d])).Pairwise (· ≤ ·) →
        (∀ answer ∈ answers limit (b.take limit request.now).2 between, ¬ Passed answer) →
        retryAfter ≤ d →
        Passed ((((b.take limit request.now).2.feed limit between).take limit
          (request.now + d)).1) := by
  refine ⟨fun instants rest hsorted => ?_, fun past between t d a hsorted ha hrefused hnone => ?_,
    fun app request buckets b statusCode error retryAfter hlimit hb hfilled h between d hsorted
      hnone hd => ?_⟩
  · exact logged_of_thinned hburst le_rfl hsorted fun _ _ => rfl
  · have hsplit : created :: (past ++ t :: (between ++ [t + d])) =
        (created :: past) ++ t :: (between ++ [t + d]) := rfl
    rw [hsplit, List.pairwise_append] at hsorted
    have hfeed : ∀ later, (Bucket.new limit created).feed limit (past ++ t :: later) =
        ((((Bucket.new limit created).feed limit past).take limit t).2).feed limit later := by
      intro later
      unfold feed
      rw [List.foldl_append, List.foldl_cons]
    rw [hfeed]
    refine passed_after_iff hburst hrefill ?_ hsorted.2.1 ha hrefused ?_
    · -- The bucket was last looked at by a take before, or when it was made.
      exact filledAt_feed_le (hsorted.2.2 created List.mem_cons_self t List.mem_cons_self)
        fun u hu => hsorted.2.2 u (List.mem_cons_of_mem _ hu) t List.mem_cons_self
    · rwa [hfeed []] at hnone
  · subst hlimit
    rcases retryAfter_of_screened h with ⟨a, ha, hrefused, hle⟩
    rw [Limiters.take_answer] at ha
    subst hb
    exact (passed_after_iff hburst hrefill hfilled hsorted ha hrefused hnone).mpr (hle.trans hd)

/-- A caller of a burst of one who asks too early is answered later as if he had not. -/
theorem refused_unseen_early :
    logged ⟨1, 2⟩ (Bucket.new ⟨1, 2⟩ 0) [0, 1 / 2] =
      (logged ⟨1, 2⟩ (Bucket.new ⟨1, 2⟩ 0) [0, 1 / 4, 1 / 2]).eraseIdx 1 :=
  (@refused_unseen ⟨1, 2⟩ (by decide) (by norm_num) 0).1 [0, 1 / 4, 1 / 2] _ (by decide +kernel)
    (.keep _ (.drop (by decide +kernel) (.keep _ .nil)))

end Surface

end ClaimTriage
