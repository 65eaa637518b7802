import ClaimTriage.Api.Log
import ClaimTriage.Guards.Crowd

/-!
# What One Caller Can Ask For

How many runs the triager can be asked to carry by one caller of the entry point.

Every submission takes from its caller's bucket before anything of it is read, so
what is asked for was let through there, whatever the submissions are and whatever
becomes of them. The limit therefore holds of the runs in any stretch of submissions,
and with it what a caller gains by being forgotten: a burst for every so many
submissions by others as the table has room for callers.

## Main definitions

* `askedBy`: How many submissions of a caller the triager was asked to carry.

## Theorems

* `buckets_next`: A submission is a call of the limiters.
* `askedBy_le_letThrough`: What is asked for was let through.
* `askedBy_le_of_turns`: What a caller can ask for in any stretch of submissions.
-/

namespace ClaimTriage

open Theory Text Recency

namespace Stack

section Throughput

variable (read : Str → Str) (frames : Nat) (l : Value.Layout) (rejection : Str → Str)
  (app : Surface.App) (n : Nat)

/-- How many submissions of a caller the triager was asked to carry. -/
def askedBy (caller : Str) (ts : List Turn) : Nat :=
  ts.countP fun turn => Surface.caller turn.occasion.request = caller ∧
    (served read frames l rejection app n turn.found turn.occasion).calls ≠ []

variable {read} {frames} {l} {rejection} {app} {n}

/-- A submission takes from its caller's bucket, whatever becomes of it. -/
theorem buckets_next (d : Deployment) (o : Occasion) :
    (next read frames l rejection app n d o).buckets =
      (Limiters.take app.guard.rateLimit Surface.defaultKeys (Surface.call o.request)
        d.buckets).2 := by
  unfold next served Surface.postClaims
  generalize hscreened : Surface.screenSubmissions (deployed read frames l rejection app
    (fun asked => (run o.wiring d.store asked).1) n) o.request d.buckets = out
  have htaken : out.2 = (Limiters.take app.guard.rateLimit Surface.defaultKeys
      (Surface.call o.request) d.buckets).2 := by
    rw [← hscreened]
    rfl
  rw [← htaken]
  rcases out with ⟨raised | response | ⟨⟩, taken⟩
  · rfl
  · rfl
  · rfl

/-- What is asked for was let through. -/
theorem passed_of_calls {d : Deployment} {o : Occasion}
    (h : (served read frames l rejection app n d o).calls ≠ []) :
    Bucket.Passed (Limiters.take app.guard.rateLimit Surface.defaultKeys (Surface.call o.request)
      d.buckets).1 := by
  rcases admits_of_calls h with ⟨documents, takenIn, verdicts, hadmits, _⟩
  exact Surface.take_of_token app.guard (Surface.call o.request) hadmits.token

/-- The triager is asked to carry no more of a caller's submissions than are let
    through. -/
theorem askedBy_le_letThrough (caller : Str) (d : Deployment) (os : List Occasion) :
    askedBy read frames l rejection app n caller (turns read frames l rejection app n d os) ≤
      Limiters.letThrough app.guard.rateLimit Surface.defaultKeys caller d.buckets
        (os.map fun o => Surface.call o.request) := by
  induction os generalizing d with
  | nil => exact Nat.zero_le _
  | cons o os ih =>
      have hrest := ih (next read frames l rejection app n d o)
      rw [buckets_next] at hrest
      unfold askedBy at hrest ⊢
      rw [turns, List.countP_cons, List.map_cons, Limiters.letThrough]
      refine Nat.add_le_add hrest ?_
      by_cases hasked : Surface.caller o.request = caller ∧
          (served read frames l rejection app n d o).calls ≠ []
      · rw [if_pos (decide_eq_true hasked), if_pos ⟨hasked.1, passed_of_calls hasked.2⟩]
      · rw [if_neg (by simpa using hasked)]
        exact Nat.zero_le _

variable (read) (frames) (l) (rejection) (app) (n) in
/-- Submissions leave a sound table. -/
theorem sound_foldl_next (os : List Occasion) {d : Deployment}
    (h : Limiters.Sound app.guard.rateLimit Surface.defaultKeys d.buckets) :
    Limiters.Sound app.guard.rateLimit Surface.defaultKeys
      (os.foldl (next read frames l rejection app n) d).buckets := by
  induction os generalizing d with
  | nil => exact h
  | cons o os ih =>
      have hnext : Limiters.Sound app.guard.rateLimit Surface.defaultKeys
          (next read frames l rejection app n d o).buckets := by
        have hburst : 1 ≤ app.guard.rateLimit.burst := app.guard.burst_pos
        rw [buckets_next]
        exact Limiters.sound_take hburst app.guard.refill_pos h _
      exact ih hnext

/-- In any stretch of the submissions to an entry point, whatever they are and whatever
    comes of them, the triager is asked to carry no more of one caller's than the burst,
    once and once more for every so many submissions by others as there is room for
    callers, and what is refilled over the stretch. -/
theorem askedBy_le_of_turns (read : Str → Str) (frames : Nat) (l : Value.Layout)
    (rejection : Str → Str) (app : Surface.App) (n : Nat) (store : Transaction.Store)
    (before stretch : List Occasion) (caller : Str) {s t : ℚ} (hst : s ≤ t)
    (hclock : (stretch.map fun o => o.request.now).Pairwise (· ≤ ·))
    (hwithin : ∀ o ∈ stretch, s ≤ o.request.now ∧ o.request.now ≤ t) :
    (askedBy read frames l rejection app n caller (turns read frames l rejection app n
        (before.foldl (next read frames l rejection app n) ⟨[], store⟩) stretch) : ℚ) ≤
      app.guard.rateLimitBurst * (1 + (stretch.countP fun o =>
        Surface.caller o.request ≠ caller) / Surface.defaultKeys : Nat) +
        app.guard.rateLimitRefillPerSecond * (t - s) := by
  generalize hd : before.foldl (next read frames l rejection app n) ⟨[], store⟩ = d
  have hsound : Limiters.Sound app.guard.rateLimit Surface.defaultKeys d.buckets := by
    rw [← hd]
    exact sound_foldl_next read frames l rejection app n before (Limiters.sound_nil _ _)
  have hburst : 1 ≤ app.guard.rateLimit.burst := app.guard.burst_pos
  have hroom : 1 ≤ Surface.defaultKeys := by decide
  -- The limiters see of the submissions who they are from and when they are made.
  have hthrough : (Limiters.letThrough app.guard.rateLimit Surface.defaultKeys caller d.buckets
      (stretch.map fun o => Surface.call o.request) : ℚ) ≤
      app.guard.rateLimit.burst * (1 + ((stretch.map fun o => Surface.call o.request).countP
        fun call => call.caller ≠ caller) / Surface.defaultKeys : Nat) +
        app.guard.rateLimit.refillPerSecond * (t - s) := by
    refine Limiters.letThrough_le hburst app.guard.refill_pos hroom hsound hst ?_
      (List.forall_mem_map.mpr hwithin)
    rw [List.map_map]
    exact hclock
  rw [List.countP_map] at hthrough
  have hasked : (askedBy read frames l rejection app n caller
      (turns read frames l rejection app n d stretch) : ℚ) ≤
      Limiters.letThrough app.guard.rateLimit Surface.defaultKeys caller d.buckets
        (stretch.map fun o => Surface.call o.request) :=
    Nat.cast_le.mpr (askedBy_le_letThrough caller d stretch)
  exact hasked.trans hthrough

end Throughput

section Example

/-- An entry point that lets one submission through at a time, and one more a second. -/
def slowApp : Surface.App :=
  { heldApp with guard := { Surface.sampleGuard with
      rateLimitBurst := 1
      rateLimitRefillPerSecond := 1
      burst_pos := by decide
      refill_pos := by decide +kernel } }

/-- Three submissions of one caller within a second. -/
def thrice : List Occasion :=
  [0, 1 / 2, 1].map fun now => ⟨{ unknownRequest with now := now }, calm⟩

/-- Two of them are asked for, which is all there may be. -/
theorem askedBy_le_of_turns_thrice :
    askedBy id 5 Value.compact id slowApp 1 Surface.callerUnknown
        (turns id 5 Value.compact id slowApp 1 ⟨[], Transaction.fresh⟩ thrice) = 2 ∧
      (askedBy id 5 Value.compact id slowApp 1 Surface.callerUnknown
        (turns id 5 Value.compact id slowApp 1 ⟨[], Transaction.fresh⟩ thrice) : ℚ) ≤
        (1 : Int) * (1 + (thrice.countP fun o =>
          Surface.caller o.request ≠ Surface.callerUnknown) / Surface.defaultKeys : Nat) +
          1 * (1 - 0) :=
  ⟨by decide +kernel, askedBy_le_of_turns id 5 Value.compact id slowApp 1 Transaction.fresh []
    thrice Surface.callerUnknown (by norm_num) (by decide +kernel) (by decide +kernel)⟩

end Example

end Stack

end ClaimTriage
