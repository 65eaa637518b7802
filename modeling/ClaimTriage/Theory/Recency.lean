import ClaimTriage.Theory.Dict
import Mathlib.Data.List.Dedup
import Mathlib.Data.List.DropRight

/-!
# Tables That Keep the Most Recent

A table of values under keys that holds a bounded number of them and drops the
one visited longest ago for another. Keys stand in the order of their last
visits.

What such a table holds is a function of the visits alone: `keys_run` is that
its keys are the last of the distinct keys visited, and `get_run` that the value
under a key is what the key's own visits since it was last dropped make of a
new one, whatever other keys were visited in between. A key is dropped at the
visit that makes as many distinct others since its own last one as the table
has room for, and at no other (`dropped_iff`).

## Main definitions

* `Table`: Values under keys.
* `visit`: Take a value out of the table, or a new one, and put back the next.
* `run`: A list of visits, one after the other.
* `own`: The visits of one key.
* `alone`: What visits make of a value no other key's visit comes between.
* `Drops`: A visit drops another key.

## Theorems

* `dedup_concat`: The distinct elements of a list with one more at its end.
* `mem_rtake_dedup`: An element is among the last distinct ones when few distinct
  others follow it.
* `visit_of_get`: A visit to a key of the table.
* `visit_of_new`: A visit to a key that is not in the table.
* `keys_run`: The keys of a table are the last distinct ones visited.
* `dropped_iff`: When a key leaves the table.
* `get_run`: The value under a key is what its own visits made of it.
-/

namespace Theory

namespace Recency

variable {κ β ι : Type*} [DecidableEq κ]

/-- Values under keys, the key visited longest ago first. -/
abbrev Table (κ β : Type*) := List (κ × β)

/-- The keys of a table, the one visited longest ago first. -/
def keys (t : Table κ β) : List κ :=
  t.map Prod.fst

/-- The value under a key. -/
def get (t : Table κ β) (k : κ) : Option β :=
  t.lookup k

/-- Set a key behind all others, its value as it is. -/
def moveToEnd (k : κ) (t : Table κ β) : Table κ β :=
  match get t k with
  | some b => t.filter (·.1 ≠ k) ++ [(k, b)]
  | none => t

/-- Drop the key visited longest ago, until no more than so many are left. -/
def shrink (K : Nat) : Table κ β → Table κ β
  | [] => []
  | e :: t => if K < (e :: t).length then shrink K t else e :: t

/-- Change the value under a key where it stands. -/
def modify (k : κ) (f : β → β) (t : Table κ β) : Table κ β :=
  t.map fun e => if e.1 = k then (e.1, f e.2) else e

/-- Take the value under a key, or a new one where there is none, and put the
    next one behind all others, in a table with room for so many. -/
def visit (K : Nat) (k : κ) (new : β) (next : β → β) (t : Table κ β) : Table κ β :=
  (t.filter (·.1 ≠ k) ++ [(k, next ((get t k).getD new))]).rtake K

/-- A list of visits to an empty table, one after the other. -/
def run (K : Nat) (new : ι → β) (next : ι → β → β) (visits : List (κ × ι)) : Table κ β :=
  visits.foldl (fun t v => visit K v.1 (new v.2) (next v.2) t) []

/-- What the visits of one key brought. -/
def own (k : κ) (visits : List (κ × ι)) : List ι :=
  (visits.filter (·.1 = k)).map Prod.snd

/-- What visits make of a value that no other key's visit comes between. -/
def alone (new : ι → β) (next : ι → β → β) : List ι → Option β
  | [] => none
  | i :: is => some ((i :: is).foldl (fun b j => next j b) (new i))

/-- A visit to a key after others drops another key: since that one's last visit
    it makes as many distinct keys as there is room for. -/
def Drops (K : Nat) (past : List κ) (x k : κ) : Prop :=
  ∃ pre post, past = pre ++ k :: post ∧ k ∉ post ∧ x ≠ k ∧ x ∉ post ∧ post.dedup.length + 1 = K

/-- The distinct elements of a list with one more at its end. -/
theorem dedup_concat (l : List κ) (k : κ) :
    (l ++ [k]).dedup = l.dedup.filter (· ≠ k) ++ [k] := by
  induction l with
  | nil => rfl
  | cons a l ih =>
      by_cases hmem : a ∈ l
      · rw [List.cons_append, List.dedup_cons_of_mem (List.mem_append_left _ hmem),
          List.dedup_cons_of_mem hmem, ih]
      · rw [List.cons_append, List.dedup_cons_of_notMem hmem]
        by_cases hak : a = k
        · -- The element comes again, so only its last occurrence counts.
          have hin : a ∈ l ++ [k] := List.mem_append_right _ (List.mem_singleton.mpr hak)
          rw [List.dedup_cons_of_mem hin, ih, List.filter_cons_of_neg (by simp [hak])]
        · have hout : a ∉ l ++ [k] := by
            rw [List.mem_append, List.mem_singleton]
            exact not_or.mpr ⟨hmem, hak⟩
          rw [List.dedup_cons_of_notMem hout, ih, List.filter_cons_of_pos (by simp [hak]),
            List.cons_append]

/-- The distinct elements of a list end with those from the last occurrence of
    one on. -/
theorem exists_dedup_eq (pre : List κ) {k : κ} {post : List κ} (hk : k ∉ post) :
    ∃ older, (pre ++ k :: post).dedup = older ++ k :: post.dedup ∧ k ∉ older := by
  have hsuffix : k :: post.dedup <:+ (pre ++ k :: post).dedup := by
    rw [List.dedup_append, List.dedup_cons_of_notMem hk]
    exact List.suffix_union_right _ _
  rcases hsuffix with ⟨older, holder⟩
  refine ⟨older, holder.symm, fun hmem => ?_⟩
  have hnodup := List.nodup_dedup (pre ++ k :: post)
  rw [← holder] at hnodup
  exact List.disjoint_of_nodup_append hnodup hmem List.mem_cons_self

omit [DecidableEq κ] in
theorem exists_last_of_mem {l : List κ} {k : κ} (h : k ∈ l) :
    ∃ pre post, l = pre ++ k :: post ∧ k ∉ post := by
  rcases List.eq_append_cons_of_mem (List.mem_reverse.mpr h) with ⟨as, bs, heq, hk⟩
  refine ⟨bs.reverse, as.reverse, ?_, fun hmem => hk (List.mem_reverse.mp hmem)⟩
  rw [← List.reverse_reverse l, heq, List.reverse_append, List.reverse_cons, List.append_assoc,
    List.singleton_append]

omit [DecidableEq κ] in
theorem mem_rtake_append_cons {K : Nat} {older later : List κ} {k : κ} (holder : k ∉ older)
    (hlater : k ∉ later) : k ∈ (older ++ k :: later).rtake K ↔ later.length < K := by
  unfold List.rtake
  rw [List.drop_append, List.mem_append, List.length_append, List.length_cons]
  constructor
  · rintro (hmem | hmem)
    · exact absurd (List.mem_of_mem_drop hmem) holder
    · -- Were the element itself dropped, none of what is left could be it.
      by_contra hle
      obtain ⟨n, hn⟩ : ∃ n, older.length + (later.length + 1) - K - older.length = n + 1 :=
        ⟨later.length - K, by omega⟩
      rw [hn, List.drop_succ_cons] at hmem
      exact hlater (List.mem_of_mem_drop hmem)
  · intro hlt
    have hzero : older.length + (later.length + 1) - K - older.length = 0 := by omega
    rw [hzero]
    exact Or.inr List.mem_cons_self

/-- An element is among the last distinct ones of a list when few enough
    distinct others follow its last occurrence. -/
theorem mem_rtake_dedup {K : Nat} (pre : List κ) {k : κ} {post : List κ} (hk : k ∉ post) :
    k ∈ (pre ++ k :: post).dedup.rtake K ↔ post.dedup.length < K := by
  rcases exists_dedup_eq pre hk with ⟨older, hdedup, holder⟩
  rw [hdedup]
  exact mem_rtake_append_cons holder fun hmem => hk (List.mem_dedup.mp hmem)

/-- One more element is one more distinct one, unless it was there before. -/
theorem length_dedup_concat (l : List κ) (k : κ) :
    (l ++ [k]).dedup.length = if k ∈ l then l.dedup.length else l.dedup.length + 1 := by
  have hperm : (l ++ [k]).dedup.length = (k :: l).dedup.length :=
    (List.perm_append_singleton k l).dedup.length_eq
  rw [hperm, List.dedup_cons]
  split
  · rfl
  · exact List.length_cons

theorem rtake_append_of_le {α : Type*} {n : Nat} (l l' : List α) (h : n ≤ l'.length) :
    (l ++ l').rtake n = l'.rtake n := by
  unfold List.rtake
  have hlen : (l ++ l').length - n = l.length + (l'.length - n) := by
    rw [List.length_append]
    omega
  rw [hlen, List.drop_append, List.drop_eq_nil_of_le (by omega), List.nil_append,
    Nat.add_sub_cancel_left]

/-- Leaving one key out of a list without repeats takes at most one from it. -/
theorem length_filter_ne {l : List κ} (h : l.Nodup) (k : κ) :
    l.length ≤ (l.filter (· ≠ k)).length + 1 := by
  induction l with
  | nil => exact Nat.zero_le _
  | cons a l ih =>
      rcases List.nodup_cons.mp h with ⟨ha, hl⟩
      by_cases hak : a = k
      · -- This was the one: the rest is kept whole.
        subst hak
        have hrest : l.filter (· ≠ a) = l := by
          rw [List.filter_eq_self]
          intro b hb
          exact decide_eq_true fun hba => ha (hba ▸ hb)
        rw [List.filter_cons_of_neg (by simp), hrest, List.length_cons]
      · rw [List.filter_cons_of_pos (by simp [hak]), List.length_cons, List.length_cons]
        have hle := ih hl
        omega

/-- The last of a list, one key set behind the others, whether the older ones
    were left out before or are left out after. -/
theorem rtake_filter_rtake {l : List κ} (h : l.Nodup) (K : Nat) (k : κ) :
    ((l.rtake K).filter (· ≠ k) ++ [k]).rtake K = (l.filter (· ≠ k) ++ [k]).rtake K := by
  cases K with
  | zero => rw [List.rtake_zero, List.rtake_zero]
  | succ K =>
      rw [List.rtake_concat_succ, List.rtake_concat_succ]
      have hl : l.filter (· ≠ k) =
          (l.take (l.length - (K + 1))).filter (· ≠ k) ++ (l.rtake (K + 1)).filter (· ≠ k) := by
        rw [← List.filter_append]
        exact congrArg _ (List.take_append_drop _ l).symm
      by_cases hlen : l.length ≤ K + 1
      · -- Nothing was left out before.
        have hall : l.rtake (K + 1) = l := by
          unfold List.rtake
          rw [Nat.sub_eq_zero_of_le hlen, List.drop_zero]
        rw [hall]
      · have hlast : (l.rtake (K + 1)).length = K + 1 := by
          unfold List.rtake
          rw [List.length_drop]
          omega
        have hkept := length_filter_ne (h.sublist (List.drop_sublist _ l) :
          (l.rtake (K + 1)).Nodup) k
        rw [hl, rtake_append_of_le _ _ (by omega)]

theorem get_eq_some_iff {t : Table κ β} (h : (keys t).Nodup) {k : κ} {b : β} :
    get t k = some b ↔ (k, b) ∈ t :=
  Dict.lookup_eq_some_iff h

theorem get_eq_none_iff {t : Table κ β} {k : κ} : get t k = none ↔ k ∉ keys t :=
  Dict.lookup_eq_none_iff

theorem get_isSome_iff {t : Table κ β} {k : κ} : (get t k).isSome ↔ k ∈ keys t :=
  Dict.lookup_isSome_iff

theorem keys_filter (t : Table κ β) (k : κ) :
    keys (t.filter (·.1 ≠ k)) = (keys t).filter (· ≠ k) := by
  unfold keys
  rw [List.filter_map]
  rfl

theorem keys_visit (K : Nat) (k : κ) (new : β) (next : β → β) (t : Table κ β) :
    keys (visit K k new next t) = ((keys t).filter (· ≠ k) ++ [k]).rtake K := by
  rw [← keys_filter]
  unfold visit keys List.rtake
  rw [List.map_drop, List.map_append, List.length_append, List.length_append, List.length_map]
  rfl

/-- A value put behind all others is in the table, if there is room for one. -/
theorem get_visit_self {K : Nat} (hK : 1 ≤ K) (k : κ) (new : β) (next : β → β) {t : Table κ β}
    (h : (keys (visit K k new next t)).Nodup) :
    get (visit K k new next t) k = some (next ((get t k).getD new)) := by
  rw [get_eq_some_iff h]
  unfold visit
  obtain ⟨n, rfl⟩ : ∃ n, K = n + 1 := ⟨K - 1, by omega⟩
  rw [List.rtake_concat_succ]
  exact List.mem_append_right _ (List.mem_singleton_self _)

/-- What is under another key that stays in the table stays as it is. -/
theorem get_visit_of_ne {K : Nat} {k x : κ} (hx : x ≠ k) (new : β) (next : β → β) {t : Table κ β}
    (h : (keys t).Nodup) (h' : (keys (visit K k new next t)).Nodup)
    (hmem : x ∈ keys (visit K k new next t)) : get (visit K k new next t) x = get t x := by
  rcases List.mem_map.mp hmem with ⟨⟨y, b⟩, hb, rfl⟩
  have ht : (y, b) ∈ t := by
    rcases List.mem_append.mp (List.mem_of_mem_drop hb) with hold | hnew
    · exact List.mem_of_mem_filter hold
    · exact absurd (congrArg Prod.fst (List.mem_singleton.mp hnew)) hx
  rw [(get_eq_some_iff h').mpr hb, (get_eq_some_iff h).mpr ht]

section Run

variable {K : Nat} {new : ι → β} {next : ι → β → β}

theorem run_concat (visits : List (κ × ι)) (v : κ × ι) :
    run K new next (visits ++ [v]) = visit K v.1 (new v.2) (next v.2) (run K new next visits) := by
  unfold run
  rw [List.foldl_append]
  rfl

/-- The keys of a table are the last distinct ones visited, as many as there is
    room for, in the order of their last visits. -/
theorem keys_run (visits : List (κ × ι)) :
    keys (run K new next visits) = (visits.map Prod.fst).dedup.rtake K := by
  induction visits using List.reverseRecOn with
  | nil =>
      rw [List.map_nil, List.dedup_nil, List.rtake_nil]
      rfl
  | append_singleton visits v ih =>
      rw [run_concat, keys_visit, ih, List.map_append, List.map_singleton, dedup_concat]
      exact rtake_filter_rtake (List.nodup_dedup _) K v.1

variable (K) (new) (next) in
theorem nodup_keys_run (visits : List (κ × ι)) : (keys (run K new next visits)).Nodup := by
  rw [keys_run]
  exact (List.nodup_dedup _).sublist (List.drop_sublist _ _)

/-- A key leaves the table at the visit that makes as many distinct others since
    its own last one as there is room for. -/
theorem dropped_iff {visits : List (κ × ι)} {v : κ × ι} {k : κ} :
    k ∈ keys (run K new next visits) ∧ k ∉ keys (run K new next (visits ++ [v])) ↔
      Drops K (visits.map Prod.fst) v.1 k := by
  rw [keys_run, keys_run, List.map_append, List.map_singleton]
  generalize visits.map Prod.fst = past
  -- With the key's last visit given, both sides count the distinct keys since.
  have hsplit : ∀ pre post, past = pre ++ k :: post → k ∉ post → v.1 ≠ k →
      (k ∈ (past ++ [v.1]).dedup.rtake K ↔ (post ++ [v.1]).dedup.length < K) := by
    intro pre post hpast hk hne
    have hk' : k ∉ post ++ [v.1] := by
      rw [List.mem_append, List.mem_singleton]
      exact not_or.mpr ⟨hk, hne.symm⟩
    rw [hpast, List.append_assoc, List.cons_append]
    exact mem_rtake_dedup pre hk'
  constructor
  · rintro ⟨hin, hout⟩
    rcases exists_last_of_mem (List.mem_dedup.mp (List.mem_of_mem_drop hin)) with
      ⟨pre, post, hpast, hk⟩
    rw [hpast, mem_rtake_dedup pre hk] at hin
    have hne : v.1 ≠ k := by
      rintro rfl
      exact hout ((mem_rtake_dedup past List.not_mem_nil).mpr (by
        rw [List.dedup_nil, List.length_nil]
        omega))
    rw [hsplit pre post hpast hk hne, length_dedup_concat] at hout
    split at hout
    · exact absurd hin hout
    · rename_i hnew
      exact ⟨pre, post, hpast, hk, hne, hnew, by omega⟩
  · rintro ⟨pre, post, hpast, hk, hne, hnew, hlen⟩
    constructor
    · rw [hpast, mem_rtake_dedup pre hk]
      omega
    · rw [hsplit pre post hpast hk hne, length_dedup_concat, if_neg hnew]
      omega

omit [DecidableEq κ] in
theorem alone_concat (is : List ι) (i : ι) :
    alone new next (is ++ [i]) = some (next i ((alone new next is).getD (new i))) := by
  cases is with
  | nil => rfl
  | cons j js =>
      simp only [List.cons_append, alone, List.foldl_cons, List.foldl_append, List.foldl_nil,
        Option.getD_some]

/-- The value under a key is what its own visits made of it since it was not in
    the table, as long as it was not dropped: the visits to other keys between
    them do not show. -/
theorem get_run (hK : 1 ≤ K) {pre since : List (κ × ι)} {k : κ}
    (hpre : k ∉ keys (run K new next pre))
    (hkept : ∀ before v after, since = before ++ v :: after →
      ¬ Drops K ((pre ++ before).map Prod.fst) v.1 k) :
    get (run K new next (pre ++ since)) k = alone new next (own k since) := by
  induction since using List.reverseRecOn with
  | nil => rw [List.append_nil, get_eq_none_iff.mpr hpre]; rfl
  | append_singleton since v ih =>
      have hbefore := ih fun before w after heq => hkept before w (after ++ [v]) (by
        rw [heq, List.append_assoc, List.cons_append])
      have hnodup := nodup_keys_run K new next (pre ++ since)
      have hnodup' := nodup_keys_run K new next (pre ++ since ++ [v])
      rw [← List.append_assoc]
      by_cases hv : v.1 = k
      · -- A visit to the key itself.
        have hown : own k (since ++ [v]) = own k since ++ [v.2] := by
          unfold own
          rw [List.filter_append, List.map_append, List.filter_cons_of_pos (by simp [hv])]
          rfl
        rw [run_concat] at hnodup' ⊢
        rw [hown, alone_concat, ← hbefore, ← hv]
        exact get_visit_self hK v.1 (new v.2) (next v.2) hnodup'
      · have hown : own k (since ++ [v]) = own k since := by
          unfold own
          rw [List.filter_append, List.filter_cons_of_neg (by simp [hv]), List.filter_nil,
            List.append_nil]
        rw [hown, ← hbefore]
        by_cases hmem : k ∈ keys (run K new next (pre ++ since))
        · -- The visit to another key does not drop this one.
          have hstay : k ∈ keys (run K new next (pre ++ since ++ [v])) := by
            by_contra hgone
            exact hkept since v [] rfl (dropped_iff.mp ⟨hmem, hgone⟩)
          rw [run_concat] at hnodup' hstay ⊢
          exact get_visit_of_ne (Ne.symm hv) _ _ hnodup hnodup' hstay
        · -- Nor does it bring this one into the table.
          have hstay : k ∉ keys (run K new next (pre ++ since ++ [v])) := by
            rw [run_concat, keys_visit]
            intro hin
            rcases List.mem_append.mp (List.mem_of_mem_drop hin) with hold | hnew
            · exact hmem (List.mem_of_mem_filter hold)
            · exact hv (List.mem_singleton.mp hnew).symm
          rw [get_eq_none_iff.mpr hstay, get_eq_none_iff.mpr hmem]

end Run

omit [DecidableEq κ] in
/-- A table shrunk to its room keeps the last keys. -/
theorem shrink_eq (K : Nat) (t : Table κ β) : shrink K t = t.rtake K := by
  induction t with
  | nil => exact (List.rtake_nil K).symm
  | cons e t ih =>
      unfold shrink
      split
      · rename_i hlt
        rw [List.length_cons] at hlt
        rw [ih, ← List.singleton_append, rtake_append_of_le [e] t (by omega)]
      · rename_i hle
        unfold List.rtake
        rw [Nat.sub_eq_zero_of_le (not_lt.mp hle), List.drop_zero]

theorem modify_concat {t : Table κ β} {k : κ} (h : k ∉ keys t) (f : β → β) (b : β) :
    modify k f (t ++ [(k, b)]) = t ++ [(k, f b)] := by
  unfold modify
  rw [List.map_append, List.map_singleton, if_pos rfl]
  congr 1
  -- The entries before it are under other keys.
  refine (List.map_congr_left fun e he => if_neg ?_).trans (List.map_id t)
  rintro rfl
  exact h (List.mem_map_of_mem he)

theorem modify_rtake (k : κ) (f : β → β) (t : Table κ β) (K : Nat) :
    modify k f (t.rtake K) = (modify k f t).rtake K := by
  unfold modify List.rtake
  rw [List.map_drop, List.length_map]

theorem notMem_keys_filter (t : Table κ β) (k : κ) : k ∉ keys (t.filter (·.1 ≠ k)) := by
  rw [keys_filter, List.mem_filter]
  rintro ⟨_, hne⟩
  exact of_decide_eq_true hne rfl

/-- A visit to a key of the table: its value is set behind the others and
    changed there. -/
theorem visit_of_get {K : Nat} {k : κ} {b : β} {t : Table κ β} (hlen : t.length ≤ K)
    (hb : get t k = some b) (new : β) (next : β → β) :
    visit K k new next t = modify k (fun _ => next b) (moveToEnd k t) := by
  have hroom : (t.filter (·.1 ≠ k) ++ [(k, next b)]).length ≤ K := by
    -- The key is among those filtered out, so there is one entry no more.
    have hmem : k ∈ keys t := get_isSome_iff.mp (hb ▸ rfl)
    rcases List.mem_map.mp hmem with ⟨e, he, hk⟩
    have hlt : (t.filter (·.1 ≠ k)).length < t.length :=
      List.length_filter_lt_length_iff_exists.mpr ⟨e, he, by simp [hk]⟩
    rw [List.length_append, List.length_singleton]
    omega
  unfold visit moveToEnd
  simp only [hb, Option.getD_some]
  rw [modify_concat (notMem_keys_filter t k)]
  unfold List.rtake
  rw [Nat.sub_eq_zero_of_le hroom, List.drop_zero]

/-- A visit to a key that is not in the table: a new value is put behind the
    others, the table shrunk to its room, and the value changed there. -/
theorem visit_of_new {K : Nat} {k : κ} {t : Table κ β} (hk : get t k = none) (new : β)
    (next : β → β) :
    visit K k new next t = modify k (fun _ => next new) (shrink K (t ++ [(k, new)])) := by
  have hout : k ∉ keys t := get_eq_none_iff.mp hk
  have hall : t.filter (·.1 ≠ k) = t := by
    rw [List.filter_eq_self]
    intro e he
    refine decide_eq_true fun hek => hout ?_
    rw [← hek]
    exact List.mem_map_of_mem he
  rw [shrink_eq, modify_rtake, modify_concat hout]
  unfold visit
  rw [hall, hk, Option.getD_none]

end Recency

end Theory
