import ClaimTriage.Guards.RateLimit
import ClaimTriage.Theory.Renewal

/-!
# The Rate Limit in a Crowd

What a caller is let through in any stretch of calls, whoever else calls in it.

A bucket of its own admits no more than its burst and what comes back. Among
others a caller's bucket may be dropped from the table and made anew, and a new one
is full, so being forgotten is worth a burst. It takes as many calls by others as
the table has room for, though, each time. So a caller is let through no more often
than its burst, once for itself and once for every so many calls by others in the
stretch, and what comes back in it.

It matters only that the clock does not go back within the stretch, and not what
the table held before it.

## Main definitions

* `Sound`: A table as the limiters leave it.
* `letThrough`: How often a caller is let through.
* `credit`: What a caller's bucket holds by an instant, where there is one.

## Theorems

* `sound_take`: The limiters leave a table so.
* `letThrough_le_credit`: What is let through is paid for.
* `letThrough_le`: What a caller is let through in any stretch of calls.
-/

namespace ClaimTriage

open Theory Text Recency

namespace Limiters

/-- A table as the limiters leave it: a bucket for each caller, no more than there is
    room for, none of them overdrawn or overfull. -/
structure Sound (limit : RateLimit) (K : Nat) (buckets : Table Str Bucket) : Prop where
  nodup : (keys buckets).Nodup
  room : buckets.length ≤ K
  level : ∀ e ∈ buckets, Bucket.Level limit e.2

/-- How often a caller is let through, of calls by anyone. -/
def letThrough (limit : RateLimit) (K : Nat) (caller : Str) :
    Table Str Bucket → List Call → Nat
  | _, [] => 0
  | buckets, call :: calls =>
      letThrough limit K caller (take limit K call buckets).2 calls +
        if call.caller = caller ∧ Bucket.Passed (take limit K call buckets).1 then 1 else 0

/-- What a caller's bucket holds by an instant; nothing, where there is none. -/
def credit (limit : RateLimit) (buckets : Table Str Bucket) (caller : Str) (now : ℚ) : ℚ :=
  (get buckets caller).elim 0 fun b => (b.refill limit now).tokens

theorem sound_nil (limit : RateLimit) (K : Nat) : Sound limit K [] where
  nodup := List.nodup_nil
  room := Nat.zero_le K
  level := List.forall_mem_nil _

section Crowd

variable {limit : RateLimit} {K : Nat} {buckets : Table Str Bucket} {call : Call} {caller : Str}
variable (hburst : 1 ≤ limit.burst) (hrefill : 0 < limit.refillPerSecond)

theorem Sound.level_get (h : Sound limit K buckets) {b : Bucket}
    (hb : get buckets caller = some b) : Bucket.Level limit b :=
  h.level _ ((get_eq_some_iff h.nodup).mp hb)

theorem Sound.keys_take (h : Sound limit K buckets) (call : Call) :
    keys (take limit K call buckets).2 = touch K call.caller (keys buckets) := by
  rw [take_table h.room, keys_visit_eq_touch]

include hburst in
theorem level_new (now : ℚ) : Bucket.Level limit (Bucket.new limit now) := by
  have hpos : (0 : ℚ) ≤ limit.burst := by exact_mod_cast (by omega : (0 : ℤ) ≤ limit.burst)
  exact ⟨hpos, le_refl _⟩

include hburst in
/-- The bucket a call takes from is level, whether it was there or is new. -/
theorem Sound.level_found (h : Sound limit K buckets) (call : Call) :
    Bucket.Level limit ((get buckets call.caller).getD (Bucket.new limit call.opened)) := by
  cases hget : get buckets call.caller with
  | none => exact level_new hburst _
  | some b => exact h.level_get hget

include hburst hrefill in
/-- The limiters leave their table sound. -/
theorem sound_take (h : Sound limit K buckets) (call : Call) :
    Sound limit K (take limit K call buckets).2 := by
  refine ⟨?_, ?_, fun e he => ?_⟩
  · rw [h.keys_take]
    refine List.Nodup.sublist (List.drop_sublist _ _) ?_
    refine List.Nodup.append (h.nodup.filter _) (List.nodup_singleton _) ?_
    rw [List.disjoint_singleton, List.mem_filter]
    exact fun hmem => of_decide_eq_true hmem.2 rfl
  · rw [take_table h.room]
    unfold visit List.rtake
    rw [List.length_drop]
    omega
  · rw [take_table h.room] at he
    rcases List.mem_append.mp (List.mem_of_mem_drop he) with hold | hnew
    · exact h.level e (List.mem_of_mem_filter hold)
    · rw [List.mem_singleton.mp hnew]
      exact Bucket.level_take hrefill.le (h.level_found hburst call)

include hrefill in
theorem credit_nonneg (h : Sound limit K buckets) (now : ℚ) :
    0 ≤ credit limit buckets caller now := by
  unfold credit
  cases hget : get buckets caller with
  | none => exact le_refl _
  | some b => exact (Bucket.level_refill hrefill.le (h.level_get hget)).1

include hrefill in
/-- What is credited later is what was, and what came back. -/
theorem credit_le_of_le {now later : ℚ} (hle : now ≤ later) :
    credit limit buckets caller later ≤
      credit limit buckets caller now + limit.refillPerSecond * (later - now) := by
  have hback : 0 ≤ limit.refillPerSecond * (later - now) :=
    mul_nonneg hrefill.le (sub_nonneg.mpr hle)
  unfold credit
  cases get buckets caller with
  | none => simpa using hback
  | some b =>
      have hsince : max (later - b.filledAt) 0 ≤ max (now - b.filledAt) 0 + (later - now) :=
        max_le (by linarith [le_max_left (now - b.filledAt) 0])
          (by linarith [le_max_right (now - b.filledAt) 0])
      have hearned := mul_le_mul_of_nonneg_right hsince hrefill.le
      simp only [Option.elim_some, Bucket.refill]
      rw [← min_add_add_right]
      refine min_le_min ?_ ?_ <;> linarith

include hburst hrefill in
/-- A call by another takes nothing from a caller but the bucket itself. -/
theorem credit_take_of_ne (h : Sound limit K buckets) (hne : call.caller ≠ caller) (now : ℚ) :
    credit limit (take limit K call buckets).2 caller now ≤ credit limit buckets caller now := by
  have hsound := sound_take hburst hrefill h call
  by_cases hmem : caller ∈ keys (take limit K call buckets).2
  · have hsame : get (take limit K call buckets).2 caller = get buckets caller := by
      have hnodup := hsound.nodup
      rw [take_table h.room] at hnodup hmem ⊢
      exact get_visit_of_ne hne.symm _ _ h.nodup hnodup hmem
    unfold credit
    rw [hsame]
  · have hgone : credit limit (take limit K call buckets).2 caller now = 0 := by
      unfold credit
      rw [get_eq_none_iff.mpr hmem]
      rfl
    rw [hgone]
    exact credit_nonneg hrefill h now

include hburst hrefill in
/-- What a caller is let through is gone from the bucket the call took from. -/
theorem credit_take_self (hK : 1 ≤ K) (h : Sound limit K buckets) (call : Call) :
    ((if Bucket.Passed (take limit K call buckets).1 then 1 else 0 : Nat) : ℚ) +
      credit limit (take limit K call buckets).2 call.caller call.now ≤
      (((get buckets call.caller).getD (Bucket.new limit call.opened)).refill limit
        call.now).tokens := by
  generalize hb : (get buckets call.caller).getD (Bucket.new limit call.opened) = b
  have hpaid := Bucket.paid_take limit call.now b call.now call.now
  simp only [le_refl, true_and] at hpaid
  have hleft : get (take limit K call buckets).2 call.caller = some (b.take limit call.now).2 := by
    have hnodup := (sound_take hburst hrefill h call).nodup
    rw [take_table h.room] at hnodup ⊢
    rw [get_visit_self hK _ _ _ hnodup, hb]
  have hcredit : credit limit (take limit K call buckets).2 call.caller call.now ≤
      (b.take limit call.now).2.tokens := by
    unfold credit
    rw [hleft, Option.elim_some, Bucket.refill, Bucket.filledAt_take, sub_self, max_self, zero_mul,
      add_zero]
    exact min_le_right _ _
  rw [take_answer, hb]
  linarith

include hburst hrefill in
/-- What a caller is let through until an instant is paid for by what its bucket held,
    by what came back until then, and by a burst for every bucket made anew. -/
theorem letThrough_le_credit (hK : 1 ≤ K) {calls : List Call} (h : Sound limit K buckets)
    {now t : ℚ} (hclock : (now :: calls.map Call.now).Pairwise (· ≤ ·))
    (hend : ∀ u ∈ now :: calls.map Call.now, u ≤ t) :
    (letThrough limit K caller buckets calls : ℚ) ≤
      credit limit buckets caller now + limit.refillPerSecond * (t - now) +
        limit.burst * renewals K caller (keys buckets) (calls.map Call.caller) := by
  induction calls generalizing buckets now with
  | nil =>
      have hcredit : 0 ≤ credit limit buckets caller now := credit_nonneg hrefill h now
      have hrest : 0 ≤ limit.refillPerSecond * (t - now) :=
        mul_nonneg hrefill.le (sub_nonneg.mpr (hend now List.mem_cons_self))
      simp only [letThrough, renewals, List.map_nil, Nat.cast_zero, mul_zero, add_zero]
      linarith
  | cons call calls ih =>
      rw [List.map_cons] at hclock hend
      have hlater : now ≤ call.now := List.rel_of_pairwise_cons hclock List.mem_cons_self
      have hrest := ih (sound_take hburst hrefill h call) (List.Pairwise.of_cons hclock)
        fun u hu => hend u (List.mem_cons_of_mem _ hu)
      rw [h.keys_take] at hrest
      rw [letThrough, List.map_cons, renewals]
      push_cast
      by_cases hown : call.caller = caller
      · subst hown
        have hself := credit_take_self hburst hrefill hK h call
        simp only [true_and]
        cases hget : get buckets call.caller with
        | none =>
            -- The bucket was made anew, and is paid for by the burst it came with.
            have hout : call.caller ∉ keys buckets := get_eq_none_iff.mp hget
            have hfull : ((Bucket.new limit call.opened).refill limit call.now).tokens ≤
                limit.burst := min_le_left _ _
            have hcredit : 0 ≤ credit limit buckets call.caller now :=
              credit_nonneg hrefill h now
            have hback : 0 ≤ limit.refillPerSecond * (call.now - now) :=
              mul_nonneg hrefill.le (sub_nonneg.mpr hlater)
            rw [hget, Option.getD_none] at hself
            simp only [hout, not_false_eq_true, if_true]
            push_cast at hself ⊢
            linarith
        | some b =>
            have hin : call.caller ∈ keys buckets := get_isSome_iff.mp (hget ▸ rfl)
            have hheld : credit limit buckets call.caller call.now =
                (b.refill limit call.now).tokens := by
              unfold credit
              rw [hget]
              rfl
            have hearned : credit limit buckets call.caller call.now ≤
                credit limit buckets call.caller now +
                  limit.refillPerSecond * (call.now - now) := credit_le_of_le hrefill hlater
            rw [hget, Option.getD_some] at hself
            simp only [hin, not_true_eq_false, if_false]
            push_cast at hself ⊢
            linarith
      · have hother := credit_take_of_ne hburst hrefill h hown call.now
        have hearned : credit limit buckets caller call.now ≤ credit limit buckets caller now +
            limit.refillPerSecond * (call.now - now) := credit_le_of_le hrefill hlater
        simp only [hown, false_and, if_false]
        linarith

include hburst hrefill in
/-- In any stretch of calls a caller is let through no more often than its burst, once
    for itself and once for every so many calls by others as the table has room for,
    and what comes back in the stretch. -/
theorem letThrough_le (hK : 1 ≤ K) {calls : List Call} (h : Sound limit K buckets) {s t : ℚ}
    (hst : s ≤ t) (hclock : (calls.map Call.now).Pairwise (· ≤ ·))
    (hwithin : ∀ call ∈ calls, s ≤ call.now ∧ call.now ≤ t) :
    (letThrough limit K caller buckets calls : ℚ) ≤
      limit.burst * (1 + (calls.countP fun call => call.caller ≠ caller) / K : Nat) +
        limit.refillPerSecond * (t - s) := by
  have hburst' : (0 : ℚ) ≤ limit.burst := (level_new hburst s).1
  have hstretch : 0 ≤ limit.refillPerSecond * (t - s) :=
    mul_nonneg hrefill.le (sub_nonneg.mpr hst)
  induction calls generalizing buckets with
  | nil =>
      rw [letThrough, Nat.cast_zero]
      have hbound : (0 : ℚ) ≤ limit.burst *
          (1 + (([] : List Call).countP fun call => call.caller ≠ caller) / K : Nat) :=
        mul_nonneg hburst' (Nat.cast_nonneg _)
      linarith
  | cons call calls ih =>
      rw [List.map_cons] at hclock
      rw [List.forall_mem_cons] at hwithin
      rw [letThrough]
      by_cases hown : call.caller = caller
      · -- From its own call on, a caller pays for being forgotten.
        subst hown
        have hself := credit_take_self hburst hrefill hK h call
        have hrest : (letThrough limit K call.caller (take limit K call buckets).2 calls : ℚ) ≤
            credit limit (take limit K call buckets).2 call.caller call.now +
              limit.refillPerSecond * (t - call.now) + limit.burst * renewals K call.caller
                (keys (take limit K call buckets).2) (calls.map Call.caller) :=
          letThrough_le_credit hburst hrefill hK (sound_take hburst hrefill h call) hclock
            (List.forall_mem_cons.mpr ⟨hwithin.1.2, List.forall_mem_map.mpr
              fun other hother => (hwithin.2 other hother).2⟩)
        have hrenewals : renewals K call.caller (keys (take limit K call buckets).2)
            (calls.map Call.caller) ≤
              (calls.countP fun other => other.caller ≠ call.caller) / K := by
          rw [Nat.le_div_iff_mul_le hK, Nat.mul_comm, h.keys_take]
          have hcount : K * renewals K call.caller (touch K call.caller (keys buckets))
              (calls.map Call.caller) ≤ (calls.map Call.caller).countP (· ≠ call.caller) + 0 :=
            mul_renewals_le hK (aged_touch_self hK call.caller (keys buckets))
          rw [List.countP_map] at hcount
          exact hcount
        have hfull : (((get buckets call.caller).getD (Bucket.new limit call.opened)).refill limit
            call.now).tokens ≤ limit.burst := min_le_left _ _
        have hpaid : (limit.burst : ℚ) * renewals K call.caller
            (keys (take limit K call buckets).2) (calls.map Call.caller) ≤
            limit.burst * ((calls.countP fun other => other.caller ≠ call.caller) / K : Nat) :=
          mul_le_mul_of_nonneg_left (by exact_mod_cast hrenewals) hburst'
        have hshort : limit.refillPerSecond * (t - call.now) ≤ limit.refillPerSecond * (t - s) :=
          mul_le_mul_of_nonneg_left (by linarith [hwithin.1.1]) hrefill.le
        rw [List.countP_cons_of_neg (by simp)]
        simp only [true_and]
        push_cast at hself ⊢
        linarith
      · have hrest := ih (sound_take hburst hrefill h call) (List.Pairwise.of_cons hclock)
          hwithin.2
        have hmore : (calls.countP fun other => other.caller ≠ caller) / K ≤
            ((call :: calls).countP fun other => other.caller ≠ caller) / K :=
          Nat.div_le_div_right (List.Sublist.countP_le (List.sublist_cons_self _ _))
        have hbound : (limit.burst : ℚ) *
            (1 + (calls.countP fun other => other.caller ≠ caller) / K : Nat) ≤
            limit.burst *
              (1 + ((call :: calls).countP fun other => other.caller ≠ caller) / K : Nat) :=
          mul_le_mul_of_nonneg_left (by exact_mod_cast Nat.add_le_add_left hmore 1) hburst'
        rw [if_neg fun hin => hown hin.1, Nat.add_zero]
        linarith

end Crowd

end Limiters

end ClaimTriage
