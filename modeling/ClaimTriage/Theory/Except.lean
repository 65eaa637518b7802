import Mathlib.Data.List.Forall2
import Mathlib.Data.List.Induction

/-!
# Computations That May Fail

What a computation of several steps comes to, step by step: it succeeds when
every step does, and fails with what the first failing step fails with.

A computation that may run out of something comes to the same with more of it,
unless it had run out: `Extends e` is the order that leaves anything at all above
the error `e`, and steps in turn respect it.

Where some of the errors are no harm, what is asked of a computation is that it
comes to a good end: `Ends T P` says that what it succeeds with is `P`, and what
it fails with is `T`. Of steps in turn, each is only asked for once those before
it have succeeded, which is what `InTurn` says of a list.

## Main definitions

* `Extends`: A computation comes to the same as another, or it ran out.
* `Ends`: What a computation comes to is this, or it fails with one of those.
* `InTurn`: A condition on each of a list, where each may be the last.

## Theorems

* `bind_eq_ok`: One step after another succeeds when both do.
* `bind_eq_error`: And fails with what the first failing one does.
* `mapM_eq_error`: A step for each of a list fails at the first that does.
* `exists_mapM_eq_error`: And so if any does.
* `mapM_eq_ok`: It succeeds when all of them do, with what they come to.
* `forall_mem_mapM`, `exists_mem_mapM`: What holds of these is what holds of those.
* `filterMapM_eq_ok`: And so where a step may leave its element out.
* `extends_bind`, `extends_mapM`: Steps in turn, with more of what they may run out of.
* `ends_bind`: The end of one step after another.
* `ends_mapM`: The end of a step for each of a list.
-/

namespace Theory

namespace Failing

variable {ε α β : Type}

/-- What is known to succeed has something it comes to. -/
theorem exists_of_isOk {x : Except ε α} (h : x.isOk) : ∃ a, x = .ok a := by
  cases x with
  | ok a => exact ⟨a, rfl⟩
  | error e => cases h

theorem bind_eq_ok {x : Except ε α} {f : α → Except ε β} {b : β} :
    (x >>= f) = .ok b ↔ ∃ a, x = .ok a ∧ f a = .ok b := by
  cases x with
  | ok a => exact ⟨fun h => ⟨a, rfl, h⟩, fun ⟨_, ha, h⟩ => Except.ok.inj ha ▸ h⟩
  | error e => exact ⟨nofun, fun ⟨_, h, _⟩ => absurd h nofun⟩

theorem bind_eq_error {x : Except ε α} {f : α → Except ε β} {e : ε} :
    (x >>= f) = .error e ↔ x = .error e ∨ ∃ a, x = .ok a ∧ f a = .error e := by
  cases x with
  | ok a =>
      refine ⟨fun h => Or.inr ⟨a, rfl, h⟩, ?_⟩
      rintro (h | ⟨_, ha, h⟩)
      · cases h
      · exact Except.ok.inj ha ▸ h
  | error e' =>
      have hbind : ((.error e' : Except ε α) >>= f) = .error e' := rfl
      rw [hbind, Except.error.injEq, Except.error.injEq]
      refine ⟨fun h => Or.inl h, ?_⟩
      rintro (h | ⟨_, ha, _⟩)
      · exact h
      · cases ha

/-- A step for each of a list fails at the first of them whose step does. -/
theorem mapM_eq_error {f : α → Except ε β} {l : List α} {e : ε} :
    l.mapM f = .error e ↔
      ∃ pre a post, l = pre ++ a :: post ∧ (∀ p ∈ pre, ∃ b, f p = .ok b) ∧ f a = .error e := by
  induction l with
  | nil =>
      rw [List.mapM_nil]
      refine ⟨nofun, ?_⟩
      rintro ⟨pre, a, post, hsplit, _⟩
      exact absurd hsplit.symm (List.append_ne_nil_of_right_ne_nil _ (List.cons_ne_nil _ _))
  | cons x l ih =>
      rw [List.mapM_cons, bind_eq_error]
      constructor
      · rintro (hx | ⟨b, hb, hrest⟩)
        · exact ⟨[], x, l, rfl, fun _ h => absurd h List.not_mem_nil, hx⟩
        · -- The first succeeds, so it is one of those before the failing one.
          rw [bind_eq_error] at hrest
          rcases hrest with hrest | ⟨_, _, hpure⟩
          · rcases ih.mp hrest with ⟨pre, a, post, rfl, hpre, ha⟩
            refine ⟨x :: pre, a, post, rfl, fun p hp => ?_, ha⟩
            rcases List.mem_cons.mp hp with rfl | hp
            · exact ⟨b, hb⟩
            · exact hpre p hp
          · cases hpure
      · rintro ⟨pre, a, post, hsplit, hpre, ha⟩
        cases pre with
        | nil =>
            cases hsplit
            exact Or.inl ha
        | cons y pre =>
            cases hsplit
            rcases hpre x List.mem_cons_self with ⟨b, hb⟩
            refine Or.inr ⟨b, hb, bind_eq_error.mpr (Or.inl (ih.mpr ?_))⟩
            exact ⟨pre, a, post, rfl, fun p hp => hpre p (List.mem_cons_of_mem _ hp), ha⟩

theorem exists_mapM_eq_error {f : α → Except ε β} {l : List α} :
    (∃ e, l.mapM f = .error e) ↔ ∃ a ∈ l, ∃ e, f a = .error e := by
  induction l with
  | nil =>
      rw [List.mapM_nil]
      refine ⟨fun ⟨_, h⟩ => absurd h nofun, ?_⟩
      rintro ⟨a, ha, _⟩
      exact absurd ha List.not_mem_nil
  | cons x l ih =>
      rw [List.mapM_cons, List.exists_mem_cons_iff, ← ih]
      cases f x with
      | error e => exact ⟨fun _ => Or.inl ⟨e, rfl⟩, fun _ => ⟨e, rfl⟩⟩
      | ok b =>
          -- The first succeeds, so it is up to the others.
          cases l.mapM f with
          | error e => exact ⟨fun _ => Or.inr ⟨e, rfl⟩, fun _ => ⟨e, rfl⟩⟩
          | ok bs =>
              refine ⟨fun ⟨_, h⟩ => absurd h nofun, ?_⟩
              rintro (⟨_, h⟩ | ⟨_, h⟩) <;> cases h

/-- A step for each of a list succeeds when all of them do, in their order. -/
theorem mapM_eq_ok {f : α → Except ε β} {l : List α} {bs : List β} :
    l.mapM f = .ok bs ↔ List.Forall₂ (fun a b => f a = .ok b) l bs := by
  induction l generalizing bs with
  | nil =>
      rw [List.mapM_nil, List.forall₂_nil_left_iff]
      exact ⟨fun h => (Except.ok.inj h).symm, fun h => congrArg _ h.symm⟩
  | cons x l ih =>
      rw [List.mapM_cons, bind_eq_ok]
      constructor
      · rintro ⟨b, hb, hrest⟩
        rcases bind_eq_ok.mp hrest with ⟨rest, htail, hpure⟩
        cases hpure
        exact List.Forall₂.cons hb (ih.mp htail)
      · intro h
        cases h with
        | cons hb hrest => exact ⟨_, hb, bind_eq_ok.mpr ⟨_, ih.mpr hrest, rfl⟩⟩

/-- What holds of all of a list holds of all it comes to, where it does of each. -/
theorem forall_mem_mapM {P : α → Prop} {R : β → Prop} {f : α → Except ε β} {l : List α}
    {bs : List β} (h : l.mapM f = .ok bs) (hPR : ∀ a b, f a = .ok b → (P a ↔ R b)) :
    (∀ a ∈ l, P a) ↔ ∀ b ∈ bs, R b := by
  induction mapM_eq_ok.mp h with
  | nil => simp only [List.not_mem_nil, false_implies, implies_true]
  | cons hab hrest ih =>
      rw [List.forall_mem_cons, List.forall_mem_cons, hPR _ _ hab, ih (mapM_eq_ok.mpr hrest)]

/-- And what holds of one of them. -/
theorem exists_mem_mapM {P : α → Prop} {R : β → Prop} {f : α → Except ε β} {l : List α}
    {bs : List β} (h : l.mapM f = .ok bs) (hPR : ∀ a b, f a = .ok b → (P a ↔ R b)) :
    (∃ a ∈ l, P a) ↔ ∃ b ∈ bs, R b := by
  have hnone := forall_mem_mapM (P := fun a => ¬ P a) (R := fun b => ¬ R b) h fun a b hab =>
    not_congr (hPR a b hab)
  simpa only [not_forall, not_not, exists_prop] using not_congr hnone

/-- Each of a list comes to one of what all of them come to. -/
theorem exists_mem_of_mapM {f : α → Except ε β} {l : List α} {bs : List β} {a : α}
    (h : l.mapM f = .ok bs) (ha : a ∈ l) : ∃ b ∈ bs, f a = .ok b := by
  induction mapM_eq_ok.mp h with
  | nil => exact absurd ha List.not_mem_nil
  | cons hab hrest ih =>
      rcases List.mem_cons.mp ha with rfl | hmem
      · exact ⟨_, List.mem_cons_self, hab⟩
      · rcases ih (mapM_eq_ok.mpr hrest) hmem with ⟨b, hb, hfb⟩
        exact ⟨b, List.mem_cons_of_mem _ hb, hfb⟩

/-- A step for each of a list that may leave it out succeeds when all of them do. -/
theorem filterMapM_eq_ok {f : α → Except ε (Option β)} {g : α → Option β} {l : List α}
    (h : ∀ a ∈ l, f a = .ok (g a)) : l.filterMapM f = .ok (l.filterMap g) := by
  induction l with
  | nil => rfl
  | cons a l ih =>
      rw [List.filterMapM_cons, h a List.mem_cons_self, List.filterMap_cons,
        ih fun b hb => h b (List.mem_cons_of_mem a hb)]
      cases g a <;> rfl

/-! ### Running out -/

/-- The computation comes to the same, or it ended in the error `e`. -/
def Extends (e : ε) (x y : Except ε α) : Prop :=
  x = .error e ∨ x = y

theorem Extends.refl (e : ε) (x : Except ε α) : Extends e x x :=
  Or.inr rfl

theorem Extends.trans {e : ε} {x y z : Except ε α} (h : Extends e x y) (h' : Extends e y z) :
    Extends e x z := by
  rcases h with rfl | rfl
  · exact Or.inl rfl
  · exact h'

theorem extends_bind {e : ε} {x y : Except ε α} {f g : α → Except ε β} (h : Extends e x y)
    (hfg : ∀ a, Extends e (f a) (g a)) : Extends e (x >>= f) (y >>= g) := by
  rcases h with rfl | rfl
  · exact Or.inl rfl
  · cases x with
    | error e' => exact Or.inr rfl
    | ok a => exact hfg a

theorem extends_mapM {e : ε} {f g : α → Except ε β} {l : List α}
    (h : ∀ a ∈ l, Extends e (f a) (g a)) : Extends e (l.mapM f) (l.mapM g) := by
  induction l with
  | nil => exact Or.inr rfl
  | cons a l ih =>
      rw [List.mapM_cons, List.mapM_cons]
      refine extends_bind (h a List.mem_cons_self) fun b => ?_
      exact extends_bind (ih fun c hc => h c (List.mem_cons_of_mem a hc)) fun _ => Extends.refl e _

/-! ### Good ends -/

/-- What a computation comes to is `P`, or what it fails with is `T`. -/
def Ends (T : ε → Prop) (P : α → Prop) : Except ε α → Prop
  | .ok a => P a
  | .error e => T e

/-- What is asked of each of a list in turn, and of what follows the last. What is asked
    of one may be met without what follows being asked for. -/
def InTurn (R : α → Prop → Prop) (l : List α) (Q : Prop) : Prop :=
  l.foldr R Q

variable {T : ε → Prop} {P : α → Prop} {Q : Prop}

theorem ends_bind {P : β → Prop} {x : Except ε α} {f : α → Except ε β} :
    Ends T P (x >>= f) ↔ Ends T (fun a => Ends T P (f a)) x := by
  cases x <;> rfl

theorem ends_congr_of_ok {P' : α → Prop} {x : Except ε α} (h : ∀ a, x = .ok a → (P a ↔ P' a)) :
    Ends T P x ↔ Ends T P' x := by
  cases x with
  | ok a => exact h a rfl
  | error e => exact Iff.rfl

theorem ends_congr {P' : α → Prop} {x : Except ε α} (h : ∀ a, P a ↔ P' a) :
    Ends T P x ↔ Ends T P' x :=
  ends_congr_of_ok fun a _ => h a

/-- What ends well has not run out, where running out is no good end. -/
theorem eq_of_extends {e : ε} {x y : Except ε α} (h : Ends T P x) (he : ¬ T e)
    (hxy : Extends e x y) : x = y := by
  rcases hxy with rfl | hxy
  · exact absurd h he
  · exact hxy

/-- A computation ends well if it does whatever it comes to, and what it comes to is
    good. -/
theorem ends_iff {x : Except ε α} :
    Ends T P x ↔ Ends T (fun _ => True) x ∧ ∀ a, x = .ok a → P a := by
  cases x with
  | ok a => exact ⟨fun h => ⟨trivial, fun _ ha => Except.ok.inj ha ▸ h⟩, fun h => h.2 a rfl⟩
  | error e => exact ⟨fun h => ⟨h, nofun⟩, And.left⟩

/-- Two steps end well if the first does whatever it comes to, and the second does
    with that. -/
theorem ends_bind_of {P : β → Prop} {x : Except ε α} {f : α → Except ε β}
    (hx : Ends T (fun _ => True) x) (hf : ∀ a, x = .ok a → Ends T P (f a)) :
    Ends T P (x >>= f) :=
  ends_bind.mpr (ends_iff.mpr ⟨hx, hf⟩)

/-- The same step twice ends as it does once. -/
theorem ends_twice {P : β → Prop} {x : Except ε α} {f : α → α → Except ε β} :
    Ends T P (x >>= fun a => x >>= f a) ↔ Ends T (fun a => Ends T P (f a a)) x := by
  cases x <;> rfl

theorem inTurn_cons {R : α → Prop → Prop} {a : α} {l : List α} :
    InTurn R (a :: l) Q ↔ R a (InTurn R l Q) :=
  Iff.rfl

theorem inTurn_congr {R R' : α → Prop → Prop} {l : List α}
    (h : ∀ a ∈ l, ∀ Q, R a Q ↔ R' a Q) : InTurn R l Q ↔ InTurn R' l Q := by
  induction l with
  | nil => exact Iff.rfl
  | cons a l ih =>
      rw [inTurn_cons, inTurn_cons, h a List.mem_cons_self,
        ih fun b hb => h b (List.mem_cons_of_mem a hb)]

theorem inTurn_and {R : α → Prop} {l : List α} :
    InTurn (fun a q => R a ∧ q) l Q ↔ (∀ a ∈ l, R a) ∧ Q := by
  induction l with
  | nil => exact ⟨fun h => ⟨fun _ h => absurd h List.not_mem_nil, h⟩, And.right⟩
  | cons a l ih => rw [inTurn_cons, ih, List.forall_mem_cons, and_assoc]

theorem inTurn_imp {R : α → Prop} {l : List α} :
    InTurn (fun a q => R a → q) l Q ↔ ((∀ a ∈ l, R a) → Q) := by
  induction l with
  | nil => exact ⟨fun h _ => h, fun h => h fun _ h => absurd h List.not_mem_nil⟩
  | cons a l ih => rw [inTurn_cons, ih, List.forall_mem_cons, and_imp]

/-- A step for each of a list ends well, and what follows it, if each does in turn. -/
theorem ends_mapM {f : α → Except ε β} {l : List α} :
    Ends T (fun _ => Q) (l.mapM f) ↔ InTurn (fun a q => Ends T (fun _ => q) (f a)) l Q := by
  induction l with
  | nil => exact Iff.rfl
  | cons a l ih =>
      rw [List.mapM_cons, ends_bind, inTurn_cons, ← ih]
      refine ends_congr fun b => ?_
      rw [ends_bind]
      exact ends_congr fun bs => Iff.rfl

end Failing

end Theory
