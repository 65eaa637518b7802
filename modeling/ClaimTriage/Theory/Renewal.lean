import ClaimTriage.Theory.Recency

/-!
# What It Takes to Be Forgotten

A table that keeps the most recent forgets a key only for others. So how often a
key is found missing is paid for: as many visits to other keys as the table has
room for come before every time, apart from those that came before the first.

The price is carried by the key's age, the number of keys that stand behind it, or
all there is room for where the key is not there. A visit to another key makes it
one older, and a visit to the key itself makes it young again.

## Main definitions

* `touch`: The keys of a table after a visit.
* `renewals`: How often a key is visited and not found.
* `Aged`: A key is no older than this.

## Theorems

* `keys_visit_eq_touch`: A visit touches the keys.
* `aged_touch_self`, `aged_touch_of_ne`: How a key ages.
* `mul_renewals_le`: A key is found missing at the price of others.
-/

namespace Theory

namespace Recency

variable {κ β : Type*} [DecidableEq κ]

/-- The keys of a table with room for so many, after a visit to a key. -/
def touch (K : Nat) (k : κ) (ks : List κ) : List κ :=
  (ks.filter (· ≠ k) ++ [k]).rtake K

/-- How often a key is visited, among visits to any keys, and not found. -/
def renewals (K : Nat) (k : κ) : List κ → List κ → Nat
  | _, [] => 0
  | ks, x :: xs => renewals K k (touch K x ks) xs + if x = k ∧ k ∉ ks then 1 else 0

/-- At most so many keys stand behind a key, or it may be as old as can be. -/
def Aged (K : Nat) (k : κ) (ks : List κ) (age : Nat) : Prop :=
  K ≤ age ∨ ∃ older later, ks = older ++ k :: later ∧ later.length ≤ age

theorem keys_visit_eq_touch (K : Nat) (k : κ) (new : β) (next : β → β) (t : Table κ β) :
    keys (visit K k new next t) = touch K k (keys t) :=
  keys_visit K k new next t

omit [DecidableEq κ] in
/-- A key that few enough others stand behind is kept with them. -/
theorem rtake_append_cons_of_lt {K : Nat} (older : List κ) (k : κ) {later : List κ}
    (h : later.length < K) :
    ∃ older', (older ++ k :: later).rtake K = older' ++ k :: later := by
  refine ⟨older.drop (older.length + (later.length + 1) - K), ?_⟩
  unfold List.rtake
  rw [List.length_append, List.length_cons, List.drop_append_of_le_length (by omega)]

/-- A key that is visited is as young as can be. -/
theorem aged_touch_self {K : Nat} (hK : 1 ≤ K) (k : κ) (ks : List κ) :
    Aged K k (touch K k ks) 0 := by
  rcases Nat.exists_eq_add_of_le' hK with ⟨n, rfl⟩
  unfold touch
  rw [List.rtake_concat_succ]
  exact Or.inr ⟨_, [], rfl, le_rfl⟩

/-- A visit to another key makes it one older. -/
theorem aged_touch_of_ne {K age : Nat} {k x : κ} {ks : List κ} (hx : x ≠ k)
    (h : Aged K k ks age) : Aged K k (touch K x ks) (age + 1) := by
  rcases h with hle | ⟨older, later, rfl, hlater⟩
  · exact Or.inl (by omega)
  · have hfilter : (older ++ k :: later).filter (· ≠ x) ++ [x] =
        older.filter (· ≠ x) ++ k :: (later.filter (· ≠ x) ++ [x]) := by
      rw [List.filter_append, List.filter_cons_of_pos (by simpa using hx.symm), List.append_assoc,
        List.cons_append]
    have hlength : (later.filter (· ≠ x) ++ [x]).length ≤ age + 1 := by
      have hfew := List.length_filter_le (· ≠ x) later
      rw [List.length_append, List.length_singleton]
      omega
    unfold touch
    rw [hfilter]
    by_cases hroom : (later.filter (· ≠ x) ++ [x]).length < K
    · rcases rtake_append_cons_of_lt (older.filter (· ≠ x)) k hroom with ⟨older', hkept⟩
      exact Or.inr ⟨older', _, hkept, hlength⟩
    · exact Or.inl (by omega)

/-- Every time a key is found missing, as many visits to others came before as there is
    room for, but for those its age stands for. -/
theorem mul_renewals_le {K : Nat} (hK : 1 ≤ K) {k : κ} {ks xs : List κ} {age : Nat}
    (h : Aged K k ks age) : K * renewals K k ks xs ≤ xs.countP (· ≠ k) + age := by
  induction xs generalizing ks age with
  | nil => exact Nat.zero_le _
  | cons x xs ih =>
      rw [renewals, List.countP_cons]
      by_cases hx : x = k
      · -- What it costs to have been missing is its age, which is nothing now.
        subst hx
        have hrest := ih (aged_touch_self hK x ks)
        by_cases hmem : x ∈ ks
        · rw [if_neg fun hout => hout.2 hmem, Nat.add_zero]
          omega
        · have hold : K ≤ age := by
            rcases h with hle | ⟨older, later, rfl, _⟩
            · exact hle
            · exact absurd (List.mem_append_right _ List.mem_cons_self) hmem
          rw [if_pos ⟨rfl, hmem⟩, Nat.mul_add]
          omega
      · have hrest := ih (aged_touch_of_ne hx h)
        rw [if_neg fun hin => hx hin.1, Nat.add_zero, if_pos (decide_eq_true hx)]
        omega

end Recency

end Theory
