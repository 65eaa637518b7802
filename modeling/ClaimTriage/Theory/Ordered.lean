import Mathlib.Data.List.Sort

/-!
# Lists Put in Order

A list that is only ever added to, and read in an order of its own. What was
read before is what a later reading begins with exactly as long as what is added
comes after what is there: an order is only kept by adding at its end.

## Main definitions

* `sortBy`: A list in the order of what a function makes of its elements.

## Theorems

* `sortBy_concat_of_le`: What comes last is read last.
* `sortBy_prefix_concat_iff`: When one more element leaves a reading as it was.
* `forall₂_insertionSort`: Lists related one by one are so in order as well.
-/

namespace Theory

namespace Ordered

variable {α β : Type*} [LinearOrder β] (f : α → β)

/-- A list in the order of what a function makes of its elements; those it makes
    the same of stay in the order they are in. -/
def sortBy (l : List α) : List α :=
  l.insertionSort fun a b => f a ≤ f b

theorem sortBy_cons (a : α) (l : List α) :
    sortBy f (a :: l) = (sortBy f l).orderedInsert (fun a b => f a ≤ f b) a :=
  rfl

theorem perm_sortBy (l : List α) : (sortBy f l).Perm l :=
  List.perm_insertionSort _ l

theorem pairwise_sortBy (l : List α) : (sortBy f l).Pairwise fun a b => f a ≤ f b := by
  have htotal : Std.Total fun a b : α => f a ≤ f b := ⟨fun a b => le_total (f a) (f b)⟩
  have htrans : IsTrans α fun a b => f a ≤ f b := ⟨fun a b c => le_trans⟩
  exact List.pairwise_insertionSort _ l

variable {f}

/-- Inserting before a last element that may stay the last leaves it so. -/
theorem orderedInsert_concat {a x : α} (l : List α) (h : f a ≤ f x) :
    (l ++ [x]).orderedInsert (fun a b => f a ≤ f b) a =
      l.orderedInsert (fun a b => f a ≤ f b) a ++ [x] := by
  induction l with
  | nil =>
      rw [List.nil_append, List.orderedInsert_cons, if_pos h]
      rfl
  | cons b l ih =>
      rw [List.cons_append, List.orderedInsert_cons, List.orderedInsert_cons, ih]
      split <;> rfl

/-- What comes after all of a list is read after all of it. -/
theorem sortBy_concat_of_le {x : α} (l : List α) (h : ∀ a ∈ l, f a ≤ f x) :
    sortBy f (l ++ [x]) = sortBy f l ++ [x] := by
  induction l with
  | nil => rfl
  | cons a l ih =>
      rw [List.forall_mem_cons] at h
      rw [List.cons_append, sortBy_cons, ih h.2, orderedInsert_concat _ h.1, sortBy_cons]

/-- One more element leaves what was read before it at the front exactly if it
    comes after all of it. -/
theorem sortBy_prefix_concat_iff {x : α} {l : List α} :
    sortBy f l <+: sortBy f (l ++ [x]) ↔ ∀ a ∈ l, f a ≤ f x := by
  constructor
  · rintro ⟨rest, hrest⟩ a ha
    have hperm : (sortBy f l ++ rest).Perm (sortBy f l ++ [x]) := by
      rw [hrest]
      exact (perm_sortBy f (l ++ [x])).trans ((perm_sortBy f l).symm.append_right [x])
    have hx : rest = [x] :=
      List.perm_singleton.mp ((List.perm_append_left_iff _).mp hperm)
    have hsorted := pairwise_sortBy f (l ++ [x])
    rw [← hrest, hx, List.pairwise_append] at hsorted
    exact hsorted.2.2 a ((perm_sortBy f l).mem_iff.mpr ha) x (List.mem_singleton_self x)
  · intro h
    rw [sortBy_concat_of_le l h]
    exact List.prefix_append _ _

section Related

variable {γ δ : Type*} {R : γ → δ → Prop}

/-- Of lists related one by one, each element of the first has one in the second. -/
theorem exists_mem_of_forall₂ {a : γ} {l : List γ} {m : List δ} (h : List.Forall₂ R l m)
    (ha : a ∈ l) : ∃ b ∈ m, R a b := by
  induction h with
  | nil => exact absurd ha List.not_mem_nil
  | @cons c d l m hcd _ ih =>
      rcases List.mem_cons.mp ha with rfl | hrest
      · exact ⟨d, List.mem_cons_self, hcd⟩
      · rcases ih hrest with ⟨b, hb, hab⟩
        exact ⟨b, List.mem_cons_of_mem _ hb, hab⟩

variable {r : γ → γ → Prop} {s : δ → δ → Prop} [DecidableRel r] [DecidableRel s]

/-- Elements put in orders that agree on them go to the same place. -/
theorem forall₂_orderedInsert {a : γ} {b : δ} {l : List γ} {m : List δ}
    (hagree : ∀ a b a' b', R a b → R a' b' → (r a a' ↔ s b b')) (hab : R a b)
    (h : List.Forall₂ R l m) :
    List.Forall₂ R (l.orderedInsert r a) (m.orderedInsert s b) := by
  induction h with
  | nil => exact .cons hab .nil
  | cons hcd hrest ih =>
      have hsame := hagree _ _ _ _ hab hcd
      rw [List.orderedInsert_cons, List.orderedInsert_cons]
      simp only [hsame]
      split
      · exact .cons hab (.cons hcd hrest)
      · exact .cons hcd ih

/-- Lists related one by one are still so when both are put in order. -/
theorem forall₂_insertionSort {l : List γ} {m : List δ}
    (hagree : ∀ a b a' b', R a b → R a' b' → (r a a' ↔ s b b')) (h : List.Forall₂ R l m) :
    List.Forall₂ R (l.insertionSort r) (m.insertionSort s) := by
  induction h with
  | nil => exact .nil
  | cons hab _ ih => exact forall₂_orderedInsert hagree hab ih

end Related

end Ordered

end Theory
