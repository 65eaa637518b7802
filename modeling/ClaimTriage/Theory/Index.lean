import ClaimTriage.Theory.Dict
import Mathlib.Data.List.Perm.Basic

/-!
# Indices

A dictionary put together from a list of sources. Each source is loaded, which may
fail, and gives an element with its key; a source whose key is taken is refused, by
what holds the key. So an index has everything that was loaded, or there is none.

What is found in an index is then told by the elements alone. Which of them has a
key is a matter of their keys, not of the order they were loaded in
(`find?_perm`), nor of elements with other keys (`find?_append_of_ne`).

## Main definitions

* `collect`: The index of what is loaded, or why there is none.

## Theorems

* `collect_of_nodup`: What is loaded under keys of their own is collected.
* `collect_of_not_nodup`: Otherwise two sources of one key are found.
* `lookup_map`: What is under a key is made from the element with the key.
* `find?_eq_some_iff`: The element with a key is the only one with it.
* `find?_perm`: The order of the elements does not matter.
* `find?_append_of_ne`: Nor do elements with other keys.
-/

namespace Theory

namespace Index

section Collect

variable {κ α β ε : Type*} [BEq κ] [LawfulBEq κ] (load : β → Except ε (κ × α)) (taken : β → α → ε)

/-- The index of what is held and what is loaded of the sources that are left, or
    why there is none. -/
def collect (held : List (κ × α)) : List β → Except ε (List (κ × α))
  | [] => .ok held
  | b :: rest =>
      match load b with
      | .error e => .error e
      | .ok e =>
          match held.lookup e.1 with
          | some other => .error (taken b other)
          | none => collect (held ++ [e]) rest

variable {load} {sources : List β} {entries : List (κ × α)}

/-- A key that is not held is none that something is found under. -/
theorem lookup_of_nodup {held : List (κ × α)} {e : κ × α} {rest : List (κ × α)}
    (h : ((held ++ e :: rest).map Prod.fst).Nodup) : held.lookup e.1 = none := by
  rw [List.map_append, List.map_cons, List.nodup_append] at h
  rw [Dict.lookup_eq_none_iff]
  exact fun hmem => h.2.2 _ hmem _ List.mem_cons_self rfl

/-- What is loaded under keys of their own is collected, all of it in turn. -/
theorem collect_of_nodup (hload : List.Forall₂ (fun b e => load b = .ok e) sources entries)
    {held : List (κ × α)} (h : ((held ++ entries).map Prod.fst).Nodup) :
    collect load taken held sources = .ok (held ++ entries) := by
  induction hload generalizing held with
  | nil => rw [collect, List.append_nil]
  | @cons b e rest entries hb _ ih =>
      rw [collect, hb]
      simp only [lookup_of_nodup h]
      have hsplit : held ++ e :: entries = held ++ [e] ++ entries := by
        rw [List.append_assoc, List.singleton_append]
      rw [hsplit] at h ⊢
      exact ih h

/-- Where a key comes twice, a source is refused for one that came before it. -/
theorem collect_of_not_nodup
    (hload : List.Forall₂ (fun b e => load b = .ok e) sources entries) {held : List (κ × α)}
    (hheld : (held.map Prod.fst).Nodup) (h : ¬ ((held ++ entries).map Prod.fst).Nodup) :
    ∃ before b after e other, sources = before ++ b :: after ∧ load b = .ok e ∧
      ((e.1, other) ∈ held ∨ ∃ a ∈ before, load a = .ok (e.1, other)) ∧
      collect load taken held sources = .error (taken b other) := by
  induction hload generalizing held with
  | nil =>
      rw [List.append_nil] at h
      exact absurd hheld h
  | @cons b e rest entries hb _ ih =>
      rw [collect, hb]
      simp only
      cases hfound : held.lookup e.1 with
      | some other =>
          have hmem := (Dict.lookup_eq_some_iff hheld).mp hfound
          exact ⟨[], b, rest, e, other, rfl, hb, Or.inl hmem, rfl⟩
      | none =>
          -- The key is a new one, so what comes twice comes after it.
          have hnew : ((held ++ [e]).map Prod.fst).Nodup := by
            rw [List.map_append, List.map_singleton, ← List.concat_eq_append]
            exact hheld.concat (Dict.lookup_eq_none_iff.mp hfound)
          rw [← List.singleton_append, ← List.append_assoc] at h
          rcases ih hnew h with ⟨before, c, after, f, other, hrest, hc, hother, hrefused⟩
          refine ⟨b :: before, c, after, f, other, by rw [hrest, List.cons_append], hc, ?_,
            hrefused⟩
          rcases hother with hheld' | ⟨a, ha, hloaded⟩
          · rcases List.mem_append.mp hheld' with hold | hlast
            · exact Or.inl hold
            · rw [List.mem_singleton] at hlast
              exact Or.inr ⟨b, List.mem_cons_self, by rw [hlast, hb]⟩
          · exact Or.inr ⟨a, List.mem_cons_of_mem _ ha, hloaded⟩

end Collect

section Find

variable {κ α γ : Type*} [BEq κ]

/-- What is under a key is made from the first element with the key. -/
theorem lookup_map (key : γ → κ) (f : γ → α) (xs : List γ) (k : κ) :
    (xs.map fun x => (key x, f x)).lookup k = (xs.find? fun x => k == key x).map f := by
  induction xs with
  | nil => rfl
  | cons x xs ih =>
      rw [List.map_cons, List.lookup_cons, List.find?_cons]
      cases hkey : k == key x with
      | true => rfl
      | false => exact ih

variable [LawfulBEq κ] {key : γ → κ} {k : κ}

/-- Among elements with keys of their own, the one that is found is the one with
    the key. -/
theorem find?_eq_some_iff {xs : List γ} (h : (xs.map key).Nodup) {x : γ} :
    xs.find? (fun x => k == key x) = some x ↔ x ∈ xs ∧ key x = k := by
  constructor
  · intro hfound
    have hkey : (k == key x) = true := List.find?_some (p := fun x => k == key x) hfound
    exact ⟨List.mem_of_find?_eq_some hfound, (eq_of_beq hkey).symm⟩
  · rintro ⟨hmem, rfl⟩
    cases hfound : xs.find? fun y => key x == key y with
    | none =>
        rw [List.find?_eq_none] at hfound
        exact absurd (beq_self_eq_true (key x)) (hfound x hmem)
    | some y =>
        have hkey : (key x == key y) = true :=
          List.find?_some (p := fun y => key x == key y) hfound
        have hy := List.mem_of_find?_eq_some hfound
        rw [List.inj_on_of_nodup_map h hmem hy (eq_of_beq hkey)]

/-- Which element has a key does not depend on their order. -/
theorem find?_perm {xs ys : List γ} (hperm : xs.Perm ys) (h : (xs.map key).Nodup) :
    xs.find? (fun x => k == key x) = ys.find? fun x => k == key x := by
  refine Option.ext fun x => ?_
  rw [find?_eq_some_iff h, find?_eq_some_iff ((hperm.map key).nodup_iff.mp h), hperm.mem_iff]

/-- Elements with other keys are not found. -/
theorem find?_append_of_ne {xs ys : List γ} (h : ∀ y ∈ ys, key y ≠ k) :
    (xs ++ ys).find? (fun x => k == key x) = xs.find? fun x => k == key x := by
  have hnone : ys.find? (fun x => k == key x) = none := by
    rw [List.find?_eq_none]
    exact fun y hy hkey => h y hy (eq_of_beq hkey).symm
  rw [List.find?_append, hnone, Option.or_none]

end Find

end Index

end Theory
