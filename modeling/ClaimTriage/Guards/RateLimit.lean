import ClaimTriage.Guards.Verdict
import ClaimTriage.Theory.Recency
import ClaimTriage.Theory.Rounding

/-!
# The Rate Limit

A bucket of tokens per caller, over a table of callers that is bounded. A
submission spends a token, and tokens come back at a steady rate up to the
burst. Numbers and instants are exact here.

Two things are worth knowing of it. Over any stretch of time a bucket admits
no more than its burst and what the stretch refills
(`admitted_le_of_monotone`): what a take spends is paid out of what the bucket
held before and what came back since. And a caller's answers are those of a
bucket nobody else takes from, for as long as the table holds it
(`take_eq_alone`), which is a fact about tables that keep the most recent and
not about buckets.

A clock reading is part of a take, since that is what the bucket sees of the
world. A caller who is not in the table has a second one: his bucket reads the
clock when it is made, before it is taken from.

## Main definitions

* `RateLimit`: How large a burst is, and how fast tokens come back.
* `Bucket.take`: Spend one token, or say how long the wait is.
* `Bucket.feed`: Takes at a list of instants.
* `Bucket.answers`: What they are answered.
* `Limiters.take`: The same, from the bucket of one caller of many.
* `Limiters.run`: Takes by any callers.

## Theorems

* `Bucket.admitted_le`: What is admitted up to an instant.
* `Bucket.admitted_le_of_monotone`: What is admitted between two instants, and
  that a bucket is never overdrawn or overfull.
* `Limiters.run_eq`: The limiters' table is one that keeps the most recent.
* `Limiters.take_eq_alone`: What it holds, and whom it answers how.
-/

namespace ClaimTriage

open Theory Text Numeral

/-- The limit itself: how large a burst is, and how many tokens one second
    returns. -/
structure RateLimit where
  burst : Int
  refillPerSecond : ℚ
  deriving DecidableEq

/-- What the limiter answered: the verdict, and how long until asking again
    would be worth it. -/
structure Admission where
  verdict : Verdict
  waitSeconds : ℚ
  deriving DecidableEq

/-- One caller's tokens: what is left of the burst, and when it was last looked
    at. -/
structure Bucket where
  tokens : ℚ
  filledAt : ℚ
  deriving DecidableEq

namespace Bucket

/-- A full bucket. -/
def new (limit : RateLimit) (now : ℚ) : Bucket where
  tokens := limit.burst
  filledAt := now

/-- The bucket with what came back since it was last looked at, up to the
    burst. -/
def refill (limit : RateLimit) (now : ℚ) (b : Bucket) : Bucket where
  -- A clock that went back returns nothing.
  tokens := min (limit.burst : ℚ) (b.tokens + max (now - b.filledAt) 0 * limit.refillPerSecond)
  filledAt := now

/-- Spend one token, or answer how long the caller has to wait for the next
    one. There is no answer where the wait would be divided by nothing. -/
def take (limit : RateLimit) (now : ℚ) (b : Bucket) : Option Admission × Bucket :=
  let filled := b.refill limit now
  if 1 ≤ filled.tokens then
    let left := filled.tokens - 1
    (some
      { verdict :=
          { check := .rateLimit
            passed := true
            detail := Rounding.fixed 0 left ++ text " of " ++ signed limit.burst ++
              text " submissions left in this burst" },
        waitSeconds := 0 },
      { filled with tokens := left })
  else if limit.refillPerSecond = 0 then
    (none, filled)
  else
    let wait := (1 - filled.tokens) / limit.refillPerSecond
    (some
      { verdict :=
          { check := .rateLimit
            passed := false
            detail := text "the burst of " ++ signed limit.burst ++
              text " submissions is spent, and the next token arrives in " ++
              Rounding.fixed 2 wait ++ text "s" },
        waitSeconds := wait },
      filled)

/-- The answer let the submission through. -/
def Passed (answer : Option Admission) : Prop :=
  ∃ a, answer = some a ∧ a.verdict.passed = true

instance (answer : Option Admission) : Decidable (Passed answer) :=
  match answer with
  | none => isFalse fun ⟨_, h, _⟩ => Option.some_ne_none _ h.symm
  | some a => decidable_of_iff (a.verdict.passed = true)
      ⟨fun h => ⟨a, rfl, h⟩, fun ⟨_, h, hpassed⟩ => Option.some.inj h ▸ hpassed⟩

/-- Takes at a list of instants, one after the other. -/
def feed (limit : RateLimit) (b : Bucket) (instants : List ℚ) : Bucket :=
  instants.foldl (fun b now => (b.take limit now).2) b

/-- What takes at a list of instants are answered. -/
def answers (limit : RateLimit) : Bucket → List ℚ → List (Option Admission)
  | _, [] => []
  | b, now :: rest => (b.take limit now).1 :: answers limit (b.take limit now).2 rest

/-- How many takes between two instants are admitted. -/
def admitted (limit : RateLimit) (b : Bucket) (instants : List ℚ) (s t : ℚ) : Nat :=
  (instants.zip (answers limit b instants)).countP fun (now, answer) =>
    s ≤ now ∧ now ≤ t ∧ Passed answer

/-- The bucket is neither overdrawn nor overfull. -/
def Level (limit : RateLimit) (b : Bucket) : Prop :=
  0 ≤ b.tokens ∧ b.tokens ≤ limit.burst

section Take

variable {limit : RateLimit} {now : ℚ} {b : Bucket}

theorem take_of_le (h : 1 ≤ (b.refill limit now).tokens) :
    Passed (b.take limit now).1 ∧
      (b.take limit now).2 = ⟨(b.refill limit now).tokens - 1, now⟩ := by
  unfold take
  simp only [if_pos h]
  exact ⟨⟨_, rfl, rfl⟩, rfl⟩

theorem take_of_lt (h : (b.refill limit now).tokens < 1) :
    ¬ Passed (b.take limit now).1 ∧ (b.take limit now).2 = b.refill limit now := by
  unfold take
  simp only [if_neg (not_le.mpr h)]
  split
  · exact ⟨nofun, rfl⟩
  · refine ⟨?_, rfl⟩
    rintro ⟨a, ha, hpassed⟩
    cases ha
    exact absurd hpassed Bool.false_ne_true

/-- What comes back is never negative, and never lifts a bucket over its
    burst. -/
theorem level_refill (hrefill : 0 ≤ limit.refillPerSecond) (hb : Level limit b) :
    Level limit (b.refill limit now) := by
  have hback : 0 ≤ max (now - b.filledAt) 0 * limit.refillPerSecond :=
    mul_nonneg (le_max_right _ _) hrefill
  unfold Level refill
  exact ⟨le_min (hb.1.trans hb.2) (add_nonneg hb.1 hback), min_le_left _ _⟩

/-- A take spends a token only where there is one. -/
theorem level_spent (hb : Level limit (b.refill limit now)) : Level limit (b.take limit now).2 := by
  by_cases h : 1 ≤ (b.refill limit now).tokens
  · rw [(take_of_le h).2]
    unfold Level at hb ⊢
    constructor <;> linarith
  · rw [(take_of_lt (not_le.mp h)).2]
    exact hb

theorem level_take (hrefill : 0 ≤ limit.refillPerSecond) (hb : Level limit b) :
    Level limit (b.take limit now).2 :=
  level_spent (level_refill hrefill hb)

theorem level_feed (hrefill : 0 ≤ limit.refillPerSecond) (hb : Level limit b) (instants : List ℚ) :
    Level limit (b.feed limit instants) := by
  unfold feed
  induction instants generalizing b with
  | nil => exact hb
  | cons now rest ih => exact ih (level_take hrefill hb)

theorem filledAt_take : (b.take limit now).2.filledAt = now := by
  by_cases h : 1 ≤ (b.refill limit now).tokens
  · rw [(take_of_le h).2]
  · rw [(take_of_lt (not_le.mp h)).2]
    rfl

theorem admitted_cons (rest : List ℚ) (s t : ℚ) :
    admitted limit b (now :: rest) s t =
      admitted limit (b.take limit now).2 rest s t +
        if s ≤ now ∧ now ≤ t ∧ Passed (b.take limit now).1 then 1 else 0 := by
  have hanswers : answers limit b (now :: rest) =
      (b.take limit now).1 :: answers limit (b.take limit now).2 rest := rfl
  unfold admitted
  rw [hanswers, List.zip_cons_cons, List.countP_cons]
  simp only [decide_eq_true_eq]

variable (limit) (now) (b) in
/-- A take is paid for: what it counts for is gone from the bucket. -/
theorem paid_take (s t : ℚ) :
    ((if s ≤ now ∧ now ≤ t ∧ Passed (b.take limit now).1 then 1 else 0 : Nat) : ℚ) +
      (b.take limit now).2.tokens ≤ (b.refill limit now).tokens := by
  by_cases h : 1 ≤ (b.refill limit now).tokens
  · rw [(take_of_le h).2]
    split <;> push_cast <;> linarith
  · have hnot := take_of_lt (not_le.mp h)
    rw [hnot.2, if_neg fun hin => hnot.1 hin.2.2]
    push_cast
    linarith

end Take

section Window

variable {limit : RateLimit} {s t : ℚ}

theorem admitted_of_lt {b : Bucket} {instants : List ℚ} (h : ∀ now ∈ instants, t < now) :
    admitted limit b instants s t = 0 := by
  induction instants generalizing b with
  | nil => rfl
  | cons now rest ih =>
      have hnow : t < now := h now List.mem_cons_self
      rw [admitted_cons, ih fun u hu => h u (List.mem_cons_of_mem _ hu), if_neg]
      exact fun hin => absurd hin.2.1 (not_le.mpr hnow)

/-- Up to an instant no more is admitted than the bucket holds at the first take
    and what comes back until then. -/
theorem admitted_le (hrefill : 0 ≤ limit.refillPerSecond) {b : Bucket} {now : ℚ} {rest : List ℚ}
    (hsorted : (now :: rest).Pairwise (· ≤ ·)) (hb : Level limit (b.refill limit now))
    (ht : now ≤ t) :
    (admitted limit b (now :: rest) s t : ℚ) ≤
      (b.refill limit now).tokens + limit.refillPerSecond * (t - now) := by
  induction rest generalizing b now with
  | nil =>
      have hpaid := paid_take limit now b s t
      have hleft := (level_spent hb).1
      have hstretch : 0 ≤ limit.refillPerSecond * (t - now) := mul_nonneg hrefill (by linarith)
      rw [admitted_cons, admitted_of_lt fun _ h => absurd h List.not_mem_nil, Nat.zero_add]
      linarith
  | cons later rest ih =>
      have hpaid := paid_take limit now b s t
      have hleft := level_spent hb
      have hlater : now ≤ later := List.rel_of_pairwise_cons hsorted List.mem_cons_self
      rw [admitted_cons, Nat.cast_add]
      by_cases hin : later ≤ t
      · -- What came back by the next take is part of what comes back by the end.
        have hnext := ih (b := (b.take limit now).2) (List.Pairwise.of_cons hsorted)
          (level_refill hrefill hleft) hin
        have hback : ((b.take limit now).2.refill limit later).tokens ≤
            (b.take limit now).2.tokens + limit.refillPerSecond * (later - now) := by
          unfold refill
          rw [filledAt_take, max_eq_left (by linarith), mul_comm limit.refillPerSecond]
          exact min_le_right _ _
        linarith
      · -- No other take is in the stretch.
        have hout : ∀ u ∈ later :: rest, t < u := by
          intro u hu
          rcases List.mem_cons.mp hu with rfl | hu
          · exact not_le.mp hin
          · exact (not_le.mp hin).trans_le
              (List.rel_of_pairwise_cons (List.Pairwise.of_cons hsorted) hu)
        have hstretch : 0 ≤ limit.refillPerSecond * (t - now) := mul_nonneg hrefill (by linarith)
        have htokens := hleft.1
        rw [admitted_of_lt hout, Nat.cast_zero]
        linarith

/-- Between two instants no more is admitted than the burst and what comes back
    between them, wherever in a run they are. -/
theorem admitted_le_window (hrefill : 0 ≤ limit.refillPerSecond) (hst : s ≤ t) {b : Bucket}
    (hb : Level limit b) {instants : List ℚ} (hsorted : instants.Pairwise (· ≤ ·)) :
    (admitted limit b instants s t : ℚ) ≤ limit.burst + limit.refillPerSecond * (t - s) := by
  have hburst : (0 : ℚ) ≤ limit.burst := hb.1.trans hb.2
  have hstretch : 0 ≤ limit.refillPerSecond * (t - s) := mul_nonneg hrefill (by linarith)
  induction instants generalizing b with
  | nil =>
      rw [admitted_of_lt fun _ h => absurd h List.not_mem_nil, Nat.cast_zero]
      linarith
  | cons now rest ih =>
      by_cases hbefore : now < s
      · -- The take is before the stretch and counts for nothing.
        rw [admitted_cons, if_neg fun hin => absurd hin.1 (not_le.mpr hbefore), Nat.add_zero]
        exact ih (level_take hrefill hb) (List.Pairwise.of_cons hsorted)
      · by_cases hafter : t < now
        · have hout : ∀ u ∈ now :: rest, t < u := by
            intro u hu
            rcases List.mem_cons.mp hu with rfl | hu
            · exact hafter
            · exact hafter.trans_le (List.rel_of_pairwise_cons hsorted hu)
          rw [admitted_of_lt hout, Nat.cast_zero]
          linarith
        · -- The first take of the stretch finds no more than a full bucket.
          have hfilled : Level limit (b.refill limit now) := level_refill hrefill hb
          have hle := admitted_le (s := s) hrefill hsorted hfilled (not_lt.mp hafter)
          have hshort : limit.refillPerSecond * (t - now) ≤ limit.refillPerSecond * (t - s) :=
            mul_le_mul_of_nonneg_left (by linarith) hrefill
          have hfull := hfilled.2
          linarith

/-- A bucket admits no more between two instants than its burst and what comes
    back between them, and after every take it holds between nothing and its
    burst. -/
theorem admitted_le_of_monotone {limit : RateLimit} (hburst : 1 ≤ limit.burst)
    (hrefill : 0 < limit.refillPerSecond) {created : ℚ} {instants : List ℚ}
    (hsorted : (created :: instants).Pairwise (· ≤ ·)) :
    (∀ s t : ℚ, s ≤ t → (admitted limit (new limit created) instants s t : ℚ) ≤
      limit.burst + limit.refillPerSecond * (t - s)) ∧
    ∀ taken rest, instants = taken ++ rest →
      Level limit ((new limit created).feed limit taken) := by
  have hnew : Level limit (new limit created) := by
    have hpos : (0 : ℚ) ≤ limit.burst := by exact_mod_cast (by omega : (0 : ℤ) ≤ limit.burst)
    exact ⟨hpos, le_refl _⟩
  exact ⟨fun s t hst => admitted_le_window hrefill.le hst hnew (List.Pairwise.of_cons hsorted),
    fun taken _ _ => level_feed hrefill.le hnew taken⟩

/-- Three takes of a bucket that refills twice a second, a half second apart. -/
theorem admitted_le_of_monotone_pair :
    admitted ⟨1, 2⟩ (new ⟨1, 2⟩ 0) [0, 1 / 4, 1 / 2] 0 (1 / 2) = 2 ∧
      (admitted ⟨1, 2⟩ (new ⟨1, 2⟩ 0) [0, 1 / 4, 1 / 2] 0 (1 / 2) : ℚ) ≤
        ((1 : ℤ) : ℚ) + 2 * (1 / 2 - 0) :=
  ⟨by decide +kernel, (@admitted_le_of_monotone ⟨1, 2⟩ (by decide) (by norm_num)
    0 [0, 1 / 4, 1 / 2] (by decide +kernel)).1 0 (1 / 2) (by norm_num)⟩

end Window

end Bucket

namespace Limiters

open Recency

/-- One submission, as the limiters see it: who it is from, what the clock reads
    when it is taken for, and what it read before that to a bucket that had to
    be made. -/
structure Call where
  caller : Str
  opened : ℚ
  now : ℚ
  deriving DecidableEq

/-- Spend one of this caller's tokens, adding his bucket if he has none or lost
    it. -/
def take (limit : RateLimit) (K : Nat) (call : Call) (buckets : Table Str Bucket) :
    Option Admission × Table Str Bucket :=
  match get buckets call.caller with
  | none =>
    let bucket := Bucket.new limit call.opened
    let (answer, taken) := bucket.take limit call.now
    (answer, modify call.caller (fun _ => taken) (shrink K (buckets ++ [(call.caller, bucket)])))
  | some bucket =>
    let (answer, taken) := bucket.take limit call.now
    (answer, modify call.caller (fun _ => taken) (moveToEnd call.caller buckets))

/-- The table after calls by any callers. -/
def run (limit : RateLimit) (K : Nat) (calls : List Call) : Table Str Bucket :=
  calls.foldl (fun buckets call => (take limit K call buckets).2) []

/-- The calls of one caller. -/
def own (caller : Str) (calls : List Call) : List Call :=
  calls.filter (·.caller = caller)

/-- A bucket made for the first of these calls and taken from by each of them,
    and by nobody else. -/
def alone (limit : RateLimit) : List Call → Option Bucket
  | [] => none
  | first :: calls =>
      some ((Bucket.new limit first.opened).feed limit ((first :: calls).map Call.now))

/-- What that bucket answers to the call after them. -/
def aloneAnswer (limit : RateLimit) (calls : List Call) (call : Call) : Option Admission :=
  (((alone limit calls).getD (Bucket.new limit call.opened)).take limit call.now).1

/-- How a call is a visit to the table. -/
def visits (calls : List Call) : List (Str × Call) :=
  calls.map fun call => (call.caller, call)

/-- Fewer than so many distinct others come between any two takes of a caller
    that follow each other. -/
def Close (K : Nat) (caller : Str) (callers : List Str) : Prop :=
  ∀ pre mid post, callers = pre ++ caller :: (mid ++ caller :: post) → caller ∉ mid →
    mid.dedup.length < K

section

variable {limit : RateLimit} {K : Nat}

theorem callers_visits (calls : List Call) :
    (visits calls).map Prod.fst = calls.map Call.caller := by
  unfold visits
  rw [List.map_map]
  rfl

theorem own_visits (caller : Str) (calls : List Call) :
    Recency.own caller (visits calls) = own caller calls := by
  unfold Recency.own own visits
  rw [List.filter_map, List.map_map]
  exact List.map_id _

/-- The answer is that of the caller's bucket as the table holds it, or of a new
    one. -/
theorem take_answer (call : Call) (buckets : Table Str Bucket) :
    (take limit K call buckets).1 =
      (((get buckets call.caller).getD (Bucket.new limit call.opened)).take limit call.now).1 := by
  unfold take
  cases get buckets call.caller <;> rfl

/-- One call is a visit to a table that keeps the most recent. -/
theorem take_table {buckets : Table Str Bucket} (hlen : buckets.length ≤ K) (call : Call) :
    (take limit K call buckets).2 =
      visit K call.caller (Bucket.new limit call.opened)
        (fun b => (b.take limit call.now).2) buckets := by
  unfold take
  cases hget : get buckets call.caller with
  | none => exact (visit_of_new hget _ fun b => (b.take limit call.now).2).symm
  | some bucket => exact (visit_of_get hlen hget _ fun b => (b.take limit call.now).2).symm

/-- The limiters' table is one that keeps the most recent. -/
theorem run_eq (calls : List Call) :
    run limit K calls = Recency.run K (fun call => Bucket.new limit call.opened)
      (fun call b => (b.take limit call.now).2) (visits calls) := by
  induction calls using List.reverseRecOn with
  | nil => rfl
  | append_singleton calls call ih =>
      have hlen : (run limit K calls).length ≤ K := by
        have hkeys := congrArg List.length (@keys_run _ _ _ _ K
          (fun call : Call => Bucket.new limit call.opened)
          (fun call b => (b.take limit call.now).2) (visits calls))
        unfold keys List.rtake at hkeys
        rw [List.length_map, List.length_drop, ← ih] at hkeys
        omega
      have hstep : run limit K (calls ++ [call]) = (take limit K call (run limit K calls)).2 := by
        unfold run
        rw [List.foldl_append]
        rfl
      have hvisits : visits (calls ++ [call]) = visits calls ++ [(call.caller, call)] := by
        unfold visits
        rw [List.map_append]
        rfl
      rw [hstep, take_table hlen, hvisits, run_concat, ← ih]

theorem alone_eq (calls : List Call) :
    Recency.alone (fun call => Bucket.new limit call.opened)
      (fun call b => (b.take limit call.now).2) calls = alone limit calls := by
  cases calls with
  | nil => rfl
  | cons first calls => simp only [Recency.alone, alone, Bucket.feed, List.foldl_map]

theorem keys_table (calls : List Call) :
    keys (run limit K calls) = (calls.map Call.caller).dedup.rtake K := by
  rw [run_eq, keys_run, callers_visits]

theorem evicted_iff (calls : List Call) (call : Call) (caller : Str) :
    caller ∈ keys (run limit K calls) ∧ caller ∉ keys (run limit K (calls ++ [call])) ↔
      Drops K (calls.map Call.caller) call.caller caller := by
  have hvisits : visits (calls ++ [call]) = visits calls ++ [(call.caller, call)] := by
    unfold visits
    rw [List.map_append]
    rfl
  rw [run_eq, run_eq, hvisits, dropped_iff, callers_visits]

/-- A caller's bucket is what his own takes made of it, as long as he was not
    evicted. -/
theorem get_table (hK : 1 ≤ K) {past since : List Call} {caller : Str}
    (habsent : caller ∉ keys (run limit K past))
    (hkept : ∀ before call after, since = before ++ call :: after →
      ¬ Drops K ((past ++ before).map Call.caller) call.caller caller) :
    get (run limit K (past ++ since)) caller = alone limit (own caller since) := by
  have hsplit : visits (past ++ since) = visits past ++ visits since := List.map_append
  rw [run_eq] at habsent ⊢
  rw [hsplit, get_run hK habsent, own_visits, alone_eq]
  rintro before ⟨k, call⟩ after heq
  -- A split of the visits is one of the calls.
  rcases List.map_eq_append_iff.mp heq with ⟨first, rest, hsince, rfl, hrest⟩
  rcases List.map_eq_cons_iff.mp hrest with ⟨call', rest', rfl, hcall, _⟩
  cases hcall
  have hpast : (visits past ++ visits first).map Prod.fst = (past ++ first).map Call.caller := by
    rw [List.map_append, callers_visits, callers_visits, List.map_append]
  intro hdrops
  refine hkept first call rest' hsince ?_
  rw [← hpast]
  exact hdrops

/-- A caller whose takes are close to each other is never evicted between
    them. -/
theorem not_drops_of_close {calls : List Call} {call : Call}
    (hclose : Close K call.caller ((calls ++ [call]).map Call.caller))
    {before after : List Call} {other : Call} (hcalls : calls = before ++ other :: after) :
    ¬ Drops K (before.map Call.caller) other.caller call.caller := by
  rintro ⟨pre, post, hbefore, hpost, hne, hnew, hlen⟩
  -- The caller's next take, after the one that would evict him.
  have hback : call.caller ∈ after.map Call.caller ++ [call.caller] :=
    List.mem_append_right _ (List.mem_singleton_self _)
  rcases List.eq_append_cons_of_mem hback with ⟨mid, rest, hmid, hmidout⟩
  have hfew : (post ++ other.caller :: mid).dedup.length < K := by
    refine hclose pre (post ++ other.caller :: mid) rest ?_ ?_
    · rw [hcalls, List.map_append, List.map_append, List.map_cons, hbefore, List.map_singleton,
        List.append_assoc, List.cons_append, List.append_assoc, List.cons_append, hmid,
        List.append_assoc, List.cons_append]
    · rw [List.mem_append, List.mem_cons, not_or, not_or]
      exact ⟨hpost, Ne.symm hne, hmidout⟩
  -- Those who evict him come before it.
  have hmany : (post ++ [other.caller]).dedup.length ≤
      (post ++ other.caller :: mid).dedup.length := by
    refine (List.subperm_of_subset (List.nodup_dedup _) fun k hk => ?_).length_le
    rw [List.mem_dedup, List.mem_append] at hk ⊢
    exact hk.imp_right fun hk => List.mem_cons.mpr (Or.inl (List.mem_singleton.mp hk))
  rw [length_dedup_concat, if_neg hnew] at hmany
  omega

/-- The table holds the callers seen last, as many as there is room for. A caller
    is evicted when as many others were seen since his last take, and at no other
    time. Until then his bucket is one nobody else takes from, and so are its
    answers; and they are from the start, as long as his takes are close to each
    other. -/
theorem take_eq_alone (limit : RateLimit) {K : Nat} (hK : 1 ≤ K) :
    (∀ calls, keys (run limit K calls) = (calls.map Call.caller).dedup.rtake K) ∧
    (∀ calls call caller,
      caller ∈ keys (run limit K calls) ∧ caller ∉ keys (run limit K (calls ++ [call])) ↔
        Drops K (calls.map Call.caller) call.caller caller) ∧
    (∀ past since call, call.caller ∉ keys (run limit K past) →
      (∀ before other after, since = before ++ other :: after →
        ¬ Drops K ((past ++ before).map Call.caller) other.caller call.caller) →
      get (run limit K (past ++ since)) call.caller = alone limit (own call.caller since) ∧
      (take limit K call (run limit K (past ++ since))).1 =
        aloneAnswer limit (own call.caller since) call) ∧
    ∀ calls call, Close K call.caller ((calls ++ [call]).map Call.caller) →
      (take limit K call (run limit K calls)).1 =
        aloneAnswer limit (own call.caller calls) call := by
  have hanswer : ∀ past since call, call.caller ∉ keys (run limit K past) →
      (∀ before other after, since = before ++ other :: after →
        ¬ Drops K ((past ++ before).map Call.caller) other.caller call.caller) →
      (take limit K call (run limit K (past ++ since))).1 =
        aloneAnswer limit (own call.caller since) call := by
    intro past since call habsent hkept
    rw [take_answer, get_table hK habsent hkept]
    rfl
  refine ⟨keys_table, evicted_iff, fun past since call habsent hkept =>
    ⟨get_table hK habsent hkept, hanswer past since call habsent hkept⟩,
    fun calls call hclose => ?_⟩
  exact hanswer [] calls call (fun h => absurd h List.not_mem_nil) fun before other after heq =>
    not_drops_of_close hclose heq

/-- A table with room for one caller: the second evicts the first, who comes
    back to a full bucket of a burst of one. -/
theorem take_eq_alone_evicted :
    ((take ⟨1, 1⟩ 1 ⟨text "a", 0, 0⟩ (run ⟨1, 1⟩ 1 [⟨text "a", 0, 0⟩, ⟨text "b", 0, 0⟩])).1.map
      fun a => a.verdict.passed) = some true ∧
    (take ⟨1, 1⟩ 1 ⟨text "a", 0, 0⟩ (run ⟨1, 1⟩ 1 [⟨text "a", 0, 0⟩, ⟨text "b", 0, 0⟩])).1 =
      aloneAnswer ⟨1, 1⟩ [] ⟨text "a", 0, 0⟩ :=
  ⟨by decide +kernel, ((take_eq_alone ⟨1, 1⟩ (K := 1) (by decide)).2.2.1
    [⟨text "a", 0, 0⟩, ⟨text "b", 0, 0⟩] [] ⟨text "a", 0, 0⟩ (by decide +kernel)
    fun before _ after h => absurd h.symm (List.append_ne_nil_of_right_ne_nil before
      (List.cons_ne_nil _ after))).2⟩

end

end Limiters

end ClaimTriage
