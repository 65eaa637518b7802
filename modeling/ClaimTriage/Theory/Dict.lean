import Mathlib.Data.List.Nodup
import Mathlib.Data.List.Induction

/-!
# Dictionaries

Lists of keys with their values, no key twice, as a dictionary is one. What is
under a key is then what is in the list with it.

## Main definitions

* `insert`: Put a value under a key.
* `ofList`: The dictionary of a list.

## Theorems

* `lookup_eq_some_iff`: What is under a key is in the list with it.
* `lookup_eq_none_iff`: Nothing is under a key that is not one.
* `lookup_filter`: Leaving keys out changes nothing under the others.
* `lookup_mapValues`: Values changed under their keys are found changed.
* `filter_map_eq_singleton`: Of values made from distinct keys one is of a key.
* `ofList_eq_self`: A list without repeated keys is its own dictionary.
-/

namespace Theory

namespace Dict

section Lookup

variable {κ β : Type*} [BEq κ] [LawfulBEq κ]

/-- What is under a key of a dictionary is in the list with it. -/
theorem lookup_eq_some_iff {d : List (κ × β)} (h : (d.map Prod.fst).Nodup) {k : κ} {b : β} :
    d.lookup k = some b ↔ (k, b) ∈ d := by
  induction d with
  | nil => exact ⟨nofun, nofun⟩
  | cons e d ih =>
      rcases e with ⟨a, c⟩
      rcases List.nodup_cons.mp h with ⟨ha, hd⟩
      rw [List.lookup_cons, List.mem_cons]
      by_cases hka : k = a
      · -- The key of the first entry is the key of no other.
        subst hka
        simp only [beq_self_eq_true, Option.some.injEq, Prod.mk.injEq, true_and]
        refine ⟨fun hcb => Or.inl hcb.symm, ?_⟩
        rintro (hbc | hmem)
        · exact hbc.symm
        · exact absurd (List.mem_map_of_mem (f := Prod.fst) hmem) ha
      · simp only [beq_eq_false_iff_ne.mpr hka, Prod.mk.injEq, hka, false_and, false_or]
        exact ih hd

/-- Nothing is under what is not a key. -/
theorem lookup_eq_none_iff {d : List (κ × β)} {k : κ} :
    d.lookup k = none ↔ k ∉ d.map Prod.fst := by
  rw [List.lookup_eq_none_iff, List.mem_map]
  constructor
  · rintro h ⟨e, he, rfl⟩
    exact absurd (h e he) (by simp)
  · intro h e he
    exact bne_iff_ne.mpr fun hke => h ⟨e, he, hke.symm⟩

theorem lookup_isSome_iff {d : List (κ × β)} {k : κ} :
    (d.lookup k).isSome ↔ k ∈ d.map Prod.fst := by
  rw [Option.isSome_iff_ne_none, ne_eq, lookup_eq_none_iff, not_not]

/-- Leaving keys out changes nothing under the others. -/
theorem lookup_filter {d : List (κ × β)} (p : κ → Bool) {k : κ} (hk : p k = true) :
    (d.filter fun e => p e.1).lookup k = d.lookup k := by
  induction d with
  | nil => rfl
  | cons e d ih =>
      by_cases he : p e.1 = true
      · have hkept : (e :: d).filter (fun e => p e.1) = e :: d.filter fun e => p e.1 :=
          List.filter_cons_of_pos (p := fun e : κ × β => p e.1) he
        rw [hkept, List.lookup_cons, List.lookup_cons, ih]
      · -- The key left out is another one.
        have hne : (k == e.1) = false := by
          refine beq_false_of_ne ?_
          rintro rfl
          exact he hk
        have hleft : (e :: d).filter (fun e => p e.1) = d.filter fun e => p e.1 :=
          List.filter_cons_of_neg (p := fun e : κ × β => p e.1) he
        rw [hleft, List.lookup_cons, hne, ih]

/-- Values changed under their keys are found changed. -/
theorem lookup_mapValues {γ : Type*} (f : κ → β → γ) {d : List (κ × β)} {k : κ} :
    (d.map fun e => (e.1, f e.1 e.2)).lookup k = (d.lookup k).map (f k) := by
  induction d with
  | nil => rfl
  | cons e d ih =>
      rw [List.map_cons, List.lookup_cons, List.lookup_cons]
      cases hkey : k == e.1 with
      | true =>
          rw [eq_of_beq hkey]
          rfl
      | false => exact ih

end Lookup

variable {κ β : Type*} [DecidableEq κ]

/-- Of values made from distinct keys, each with its key, one is of a key. -/
theorem filter_map_eq_singleton {keys : List κ} (h : keys.Nodup) {k : κ} (hk : k ∈ keys)
    (f : κ → β) (key : β → Option κ) (hkey : ∀ a, key (f a) = some a) :
    (keys.map f).filter (fun b => key b = some k) = [f k] := by
  induction keys with
  | nil => exact absurd hk List.not_mem_nil
  | cons a keys ih =>
      rcases List.nodup_cons.mp h with ⟨ha, hkeys⟩
      rw [List.map_cons]
      by_cases hak : a = k
      · subst hak
        rw [List.filter_cons_of_pos (by simp [hkey])]
        congr 1
        rw [List.filter_eq_nil_iff]
        intro b hb
        rcases List.mem_map.mp hb with ⟨c, hc, rfl⟩
        rw [hkey, decide_eq_true_eq, Option.some.injEq]
        rintro rfl
        exact ha hc
      · rw [List.filter_cons_of_neg (by simp [hkey, hak])]
        exact ih hkeys ((List.mem_cons.mp hk).resolve_left (Ne.symm hak))

/-- Put a value under a key, in the key's place where it is one already. -/
def insert (d : List (κ × β)) (e : κ × β) : List (κ × β) :=
  if e.1 ∈ d.map Prod.fst then d.map fun f => if f.1 = e.1 then e else f else d ++ [e]

/-- The dictionary of a list, where a key that comes again counts as it comes
    last. -/
def ofList (l : List (κ × β)) : List (κ × β) :=
  l.foldl insert []

theorem keys_insert (d : List (κ × β)) (e : κ × β) :
    (insert d e).map Prod.fst =
      if e.1 ∈ d.map Prod.fst then d.map Prod.fst else d.map Prod.fst ++ [e.1] := by
  unfold insert
  split
  · rw [List.map_map]
    refine List.map_congr_left fun f _ => ?_
    simp only [Function.comp_apply]
    split
    · rename_i h
      exact h.symm
    · rfl
  · rw [List.map_append, List.map_singleton]

theorem nodup_keys_insert {d : List (κ × β)} (h : (d.map Prod.fst).Nodup) (e : κ × β) :
    ((insert d e).map Prod.fst).Nodup := by
  rw [keys_insert]
  split
  · exact h
  · rename_i hnew
    rw [← List.concat_eq_append]
    exact h.concat hnew

/-- No key of a dictionary comes twice. -/
theorem nodup_keys_ofList (l : List (κ × β)) : ((ofList l).map Prod.fst).Nodup := by
  unfold ofList
  induction l using List.reverseRecOn with
  | nil => exact List.nodup_nil
  | append_singleton l e ih =>
      rw [List.foldl_append]
      exact nodup_keys_insert ih e

/-- A list no key of which comes twice is its own dictionary. -/
theorem ofList_eq_self {l : List (κ × β)} (h : (l.map Prod.fst).Nodup) : ofList l = l := by
  unfold ofList
  induction l using List.reverseRecOn with
  | nil => rfl
  | append_singleton l e ih =>
      rw [List.map_append, List.map_singleton, List.nodup_append] at h
      rw [List.foldl_append, ih h.1]
      have hnew : e.1 ∉ l.map Prod.fst := fun hmem =>
        h.2.2 _ hmem _ (List.mem_singleton_self e.1) rfl
      exact if_neg hnew

end Dict

end Theory
