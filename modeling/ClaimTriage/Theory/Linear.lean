import ClaimTriage.Theory.Machine
import Mathlib.Data.List.Basic

/-!
# Linearizability

Calls that take many steps each, among one another's, as if each had happened at
once.

The actions of the machine name the call that takes them. What the calls are
made on is an object, which does what a call asks in one go: `does` says which
answers it may give and what it may leave. A serial history is a list of calls,
each with its answer, that the object goes through one after the other. A run is
linearizable if there is such a history with the answers the run gave, that ends
where the run ends, and in which a call that was over before another one began
comes first.

A history is found by its points. Each call takes effect at one of its own steps,
which may be one that nothing is seen of and which may turn out only later to
have been the one; nothing is seen of any other step. The order of the points is
then the order of the history, and it respects the order of the calls because a
call's point is one of its steps.

## Main definitions

* `Machine.StepAt`: The step a run takes at a place.
* `Serial`: The object goes through calls one after the other.
* `Machine.Before`: One call is over before another one begins.
* `Machine.Linearizes`: A history is what a run looks like.
* `Machine.Pointed`: Where a call takes effect in a run.

## Theorems

* `stepAt_concat`: The steps of a run with one more action.
* `exists_linearizes`: A run whose calls have their points is linearizable.
* `exists_pointed_of_told`: A call takes effect at the step that answers it, if
  nothing is seen of any other.
-/

namespace Theory

/-- The object goes through calls one after the other, each with the answer it
    is given. -/
inductive Serial {τ ι Op Ans : Type*} (does : τ → Op → Ans → τ → Prop) (ops : ι → Op) :
    τ → List (ι × Ans) → τ → Prop
  | nil (t : τ) : Serial does ops t [] t
  | cons {t u v : τ} {i : ι} {a : Ans} {history : List (ι × Ans)} : does t (ops i) a u →
      Serial does ops u history v → Serial does ops t ((i, a) :: history) v

section Serial

variable {τ ι Op Ans : Type*} {does : τ → Op → Ans → τ → Prop} {ops : ι → Op}

theorem Serial.append {t u v : τ} {h h' : List (ι × Ans)} (hs : Serial does ops t h u)
    (hs' : Serial does ops u h' v) : Serial does ops t (h ++ h') v := by
  induction hs with
  | nil t => exact hs'
  | cons hdoes _ ih => exact .cons hdoes (ih hs')

theorem serial_singleton {t u : τ} {i : ι} {a : Ans} (h : does t (ops i) a u) :
    Serial does ops t [(i, a)] u :=
  .cons h (.nil u)

end Serial

namespace Machine

/-! ### The steps of a run -/

section Steps

variable {σ β : Type*} {m : Machine σ β}

/-- The step a run takes at a place. -/
def StepAt (m : Machine σ β) (s : σ) (as : List β) (k : ℕ) (b : β) (t t' : σ) : Prop :=
  as[k]? = some b ∧ m.run s (as.take k) = some t ∧ m.step t b = some t'

/-- The steps of a run with one more action are those of the run, and its
    own. -/
theorem stepAt_concat {s : σ} {as : List β} {b c : β} {k : ℕ} {t t' : σ} :
    m.StepAt s (as ++ [b]) k c t t' ↔
      m.StepAt s as k c t t' ∨
        k = as.length ∧ c = b ∧ m.run s as = some t ∧ m.step t b = some t' := by
  rcases Nat.lt_trichotomy k as.length with hlt | rfl | hgt
  · simp only [StepAt, List.getElem?_append_left hlt, List.take_append_of_le_length
      (Nat.le_of_lt hlt), Nat.ne_of_lt hlt, false_and, or_false]
  · have hnone : as[as.length]? = none := List.getElem?_eq_none (Nat.le_refl _)
    simp only [StepAt, hnone, List.getElem?_concat_length, List.take_left, Option.some.injEq,
      reduceCtorEq, false_and, false_or, true_and]
    constructor
    · rintro ⟨rfl, hrun, hstep⟩
      exact ⟨rfl, hrun, hstep⟩
    · rintro ⟨rfl, hrun, hstep⟩
      exact ⟨rfl, hrun, hstep⟩
  · have hlong : (as ++ [b])[k]? = none := List.getElem?_eq_none (by
      simp only [List.length_append, List.length_singleton]
      omega)
    have hnone : as[k]? = none := List.getElem?_eq_none (Nat.le_of_lt hgt)
    simp only [StepAt, hlong, hnone, Nat.ne_of_gt hgt, reduceCtorEq, false_and, or_false]

/-- A step of a run is one of the run that goes on. -/
theorem StepAt.concat {s : σ} {as : List β} {b c : β} {k : ℕ} {t t' : σ}
    (h : m.StepAt s as k c t t') : m.StepAt s (as ++ [b]) k c t t' :=
  stepAt_concat.mpr (Or.inl h)

/-- The last action of a run is its step at the end. -/
theorem stepAt_last {s : σ} {as : List β} {b : β} {t t' : σ} (hrun : m.run s as = some t)
    (hstep : m.step t b = some t') : m.StepAt s (as ++ [b]) as.length b t t' :=
  stepAt_concat.mpr (Or.inr ⟨rfl, rfl, hrun, hstep⟩)

/-- A run starts in a reachable state, so it takes every step out of one, and
    goes on from there to its end. -/
theorem StepAt.split {s s' : σ} {as : List β} {k : ℕ} {b : β} {t t' : σ}
    (h : m.StepAt s as k b t t') (hrun : m.run s as = some s') :
    m.run s (as.take k) = some t ∧ m.run t (as.drop k) = some s' := by
  have hwhole : m.run s (as.take k ++ as.drop k) = some s' := by rwa [List.take_append_drop]
  rcases run_append.mp hwhole with ⟨u, hu, hrest⟩
  rw [h.2.1, Option.some.injEq] at hu
  exact ⟨h.2.1, hu ▸ hrest⟩

end Steps

/-! ### Histories of a run -/

variable {σ ι α τ Op Ans : Type*} {m : Machine σ (ι × α)}

/-- One call took its last step before another took its first. -/
def Before (as : List (ι × α)) (i j : ι) : Prop :=
  ∃ pre post, as = pre ++ post ∧ (∀ a ∈ post, a.1 ≠ i) ∧ ∀ a ∈ pre, a.1 ≠ j

section Histories

variable (does : τ → Op → Ans → τ → Prop) (ops : ι → Op) (f : σ → τ) (answer : σ → ι → Option Ans)

/-- A history is what a run looks like: the object goes through it from where
    the run starts to where it ends; its calls are the ones that were answered,
    each once and with its answer; each of them took a step in the run; and a
    call that was over before another one began comes first. -/
structure Linearizes (s : σ) (as : List (ι × α)) (s' : σ) (history : List (ι × Ans)) : Prop where
  serial : Serial does ops (f s) history (f s')
  answered : ∀ i a, (i, a) ∈ history ↔ answer s' i = some a
  once : (history.map Prod.fst).Nodup
  began : ∀ i ∈ history.map Prod.fst, ∃ a ∈ as, a.1 = i
  ordered : ∀ i ∈ history.map Prod.fst, ∀ j ∈ history.map Prod.fst, Before as i j →
    List.Sublist [i, j] (history.map Prod.fst)

/-- Where a call takes effect in a run, if it does: at a step of its own at
    which the object does what the call asks, and gives the answer the call is
    given. Nothing is seen of any other step of the call. -/
structure Pointed (m : Machine σ (ι × α)) (s : σ) (as : List (ι × α)) (s' : σ) (i : ι)
    (point : Option (ℕ × Ans)) : Prop where
  effect : ∀ k a, point = some (k, a) →
    ∃ b t t', m.StepAt s as k (i, b) t t' ∧ does (f t) (ops i) a (f t')
  still : ∀ k b t t', m.StepAt s as k (i, b) t t' → (∀ a, point ≠ some (k, a)) → f t' = f t
  answered : ∀ a, answer s' i = some a ↔ ∃ k, point = some (k, a)

/-- The action at a place of a run, if it is the point of its call. -/
def mark (points : ι → Option (ℕ × Ans)) (b : (ι × α) × ℕ) : Option (ι × Ans) :=
  (points b.1.1).bind fun point => if point.1 = b.2 then some (b.1.1, point.2) else none

end Histories

section Points

variable {does : τ → Op → Ans → τ → Prop} {ops : ι → Op} {f : σ → τ} {answer : σ → ι → Option Ans}
variable {points : ι → Option (ℕ × Ans)}

theorem mark_eq_some {b : (ι × α) × ℕ} {c : ι × Ans} :
    mark points b = some c ↔ b.1.1 = c.1 ∧ points c.1 = some (b.2, c.2) := by
  rcases c with ⟨i, a⟩
  simp only [mark, Option.bind_eq_some_iff, Option.ite_none_right_eq_some, Option.some.injEq,
    Prod.mk.injEq]
  constructor
  · rintro ⟨⟨k, a'⟩, hpoint, rfl, rfl, rfl⟩
    exact ⟨rfl, hpoint⟩
  · rintro ⟨rfl, hpoint⟩
    exact ⟨(b.2, a), hpoint, rfl, rfl, rfl⟩

/-- The calls that take effect among actions are calls that take one. -/
theorem exists_of_mem_marks {as : List (ι × α)} {n : ℕ} {i : ι}
    (h : i ∈ ((as.zipIdx n).filterMap (mark points)).map Prod.fst) : ∃ a ∈ as, a.1 = i := by
  rcases List.mem_map.mp h with ⟨c, hc, rfl⟩
  rcases List.mem_filterMap.mp hc with ⟨⟨a, k⟩, hb, hmark⟩
  exact ⟨a, List.fst_mem_of_mem_zipIdx hb, (mark_eq_some.mp hmark).1⟩

/-- The object goes through the calls of a run in the order of their points. -/
theorem serial_marks {s : σ} {as : List (ι × α)}
    (heffect : ∀ i k a, points i = some (k, a) → ∀ b t t', m.StepAt s as k (i, b) t t' →
      does (f t) (ops i) a (f t'))
    (hstill : ∀ i k b t t', m.StepAt s as k (i, b) t t' → (∀ a, points i ≠ some (k, a)) →
      f t' = f t) :
    ∀ s', m.run s as = some s' →
      Serial does ops (f s) (as.zipIdx.filterMap (mark points)) (f s') := by
  induction as using List.reverseRecOn with
  | nil =>
      intro s' hrun
      rw [run_nil, Option.some.injEq] at hrun
      exact hrun ▸ .nil _
  | append_singleton as b ih =>
      intro s' hrun
      rcases run_append.mp hrun with ⟨t, ht, hlast⟩
      rcases run_cons_eq_some.mp hlast with ⟨t', hb, hnil⟩
      rw [run_nil, Option.some.injEq] at hnil
      subst hnil
      rcases b with ⟨i, b⟩
      have hlastStep := stepAt_last ht hb
      have hbefore := ih (fun i k a hp b t t' h => heffect i k a hp b t t' h.concat)
        (fun i k b t t' h => hstill i k b t t' h.concat) t ht
      rw [List.zipIdx_append, List.zipIdx_singleton, List.filterMap_append, Nat.zero_add]
      refine hbefore.append ?_
      -- The last action is the point of its call, or nothing is seen of it.
      by_cases hpoint : ∃ a, points i = some (as.length, a)
      · rcases hpoint with ⟨a, ha⟩
        have hmark : mark points ((i, b), as.length) = some (i, a) := mark_eq_some.mpr ⟨rfl, ha⟩
        rw [List.filterMap_cons_some hmark, List.filterMap_nil]
        exact serial_singleton (heffect i _ a ha b t t' hlastStep)
      · have hmark : mark points ((i, b), as.length) = none := by
          rw [Option.eq_none_iff_forall_ne_some]
          rintro ⟨j, a⟩ hsome
          rcases mark_eq_some.mp hsome with ⟨rfl, ha⟩
          exact hpoint ⟨a, ha⟩
        rw [List.filterMap_cons_none hmark, List.filterMap_nil,
          hstill i _ b t t' hlastStep fun a ha => hpoint ⟨a, ha⟩]
        exact .nil _

/-- No call has two points. -/
theorem nodup_marks (as : List (ι × α)) :
    ((as.zipIdx.filterMap (mark points)).map Prod.fst).Nodup := by
  have hplaces : (as.zipIdx.map Prod.snd).Nodup := by
    rw [List.zipIdx_map_snd]
    exact List.nodup_range'
  rw [List.Nodup, List.pairwise_map, List.pairwise_filterMap]
  refine (List.pairwise_map.mp hplaces).imp ?_
  intro b b' hne c hc c' hc' heq
  have hp := (mark_eq_some.mp hc).2
  rw [heq, (mark_eq_some.mp hc').2, Option.some.injEq, Prod.mk.injEq] at hp
  exact hne hp.1.symm

/-- A run whose calls have their points is linearizable. -/
theorem exists_linearizes {s s' : σ} {as : List (ι × α)} (hrun : m.run s as = some s')
    (h : ∀ i, ∃ point, Pointed does ops f answer m s as s' i point) :
    ∃ history, Linearizes does ops f answer s as s' history := by
  choose points hpoints using h
  refine ⟨as.zipIdx.filterMap (mark points), ?_, fun i a => ?_, nodup_marks as,
    fun i => exists_of_mem_marks, ?_⟩
  · refine serial_marks (fun i k a hp b t t' hat => ?_)
      (fun i k b t t' => (hpoints i).still k b t t') s' hrun
    -- A place of a run has one step.
    rcases (hpoints i).effect k a hp with ⟨c, u, u', hat', hdoes⟩
    have hb := hat'.1.symm.trans hat.1
    have ht := hat'.2.1.symm.trans hat.2.1
    simp only [Option.some.injEq, Prod.mk.injEq, true_and] at hb ht
    subst hb ht
    have ht' := hat'.2.2.symm.trans hat.2.2
    rw [Option.some.injEq] at ht'
    exact ht' ▸ hdoes
  · rw [(hpoints i).answered a, List.mem_filterMap]
    constructor
    · rintro ⟨⟨b, k⟩, _, hmark⟩
      exact ⟨k, (mark_eq_some.mp hmark).2⟩
    · rintro ⟨k, hp⟩
      rcases (hpoints i).effect k a hp with ⟨b, t, t', hat, _⟩
      exact ⟨((i, b), k), List.mk_mem_zipIdx_iff_getElem?.mpr hat.1, mark_eq_some.mpr ⟨rfl, hp⟩⟩
  · rintro i hi j hj ⟨pre, post, rfl, hpost, hpre⟩
    rw [List.zipIdx_append, List.filterMap_append, List.map_append] at hi hj ⊢
    -- The first call takes no step after the split, and the second none before it.
    have hfirst : i ∈ ((pre.zipIdx).filterMap (mark points)).map Prod.fst := by
      refine (List.mem_append.mp hi).resolve_right fun hmem => ?_
      rcases exists_of_mem_marks hmem with ⟨a, ha, hai⟩
      exact hpost a ha hai
    have hsecond : j ∈ ((post.zipIdx (0 + pre.length)).filterMap (mark points)).map Prod.fst := by
      refine (List.mem_append.mp hj).resolve_left fun hmem => ?_
      rcases exists_of_mem_marks hmem with ⟨a, ha, haj⟩
      exact hpre a ha haj
    exact List.Sublist.append (List.singleton_sublist.mpr hfirst)
      (List.singleton_sublist.mpr hsecond)

/-- A call takes effect at the step that answers it, if nothing is seen of any
    other. -/
theorem exists_pointed_of_told {i : ι}
    (hown : ∀ t b t', m.Reachable t → m.step t (i, b) = some t' →
      (answer t' i = answer t i ∧ f t' = f t) ∨
      (answer t i = none ∧ ∃ a, answer t' i = some a ∧ does (f t) (ops i) a (f t')))
    (hother : ∀ t j b t', j ≠ i → m.Reachable t → m.step t (j, b) = some t' →
      answer t' i = answer t i) {s s' : σ} (hinit : m.init s) (hnone : answer s i = none)
    {as : List (ι × α)} (hrun : m.run s as = some s') :
    ∃ point, Pointed does ops f answer m s as s' i point := by
  induction as using List.reverseRecOn generalizing s' with
  | nil =>
      rw [run_nil, Option.some.injEq] at hrun
      subst hrun
      refine ⟨none, by rintro _ _ ⟨⟩, ?_, fun a => ?_⟩
      · rintro k b t t' ⟨hb, _⟩
        cases hb
      · rw [hnone]
        constructor
        · rintro ⟨⟩
        · rintro ⟨_, ⟨⟩⟩
  | append_singleton as b ih =>
      rcases b with ⟨j, b⟩
      rcases run_append.mp hrun with ⟨t, ht, hlast⟩
      rcases run_cons_eq_some.mp hlast with ⟨t', hb, hnil⟩
      rw [run_nil, Option.some.injEq] at hnil
      subst hnil
      have hreach : m.Reachable t := ⟨s, as, hinit, ht⟩
      rcases ih ht with ⟨point, hpoint⟩
      -- A step that nothing is seen of leaves the point where it was.
      have hsame : answer t' i = answer t i → (j = i → f t' = f t) →
          Pointed does ops f answer m s (as ++ [(j, b)]) t' i point := by
        intro hanswer hf
        refine ⟨fun k a hp => ?_, fun k c u u' hat hne => ?_, fun a => ?_⟩
        · rcases hpoint.effect k a hp with ⟨c, u, u', hat, hdid⟩
          exact ⟨c, u, u', hat.concat, hdid⟩
        · rcases stepAt_concat.mp hat with hat | ⟨_, heq, hu, hu'⟩
          · exact hpoint.still k c u u' hat hne
          · rw [Prod.mk.injEq] at heq
            rw [ht, Option.some.injEq] at hu
            subst hu
            rw [hb, Option.some.injEq] at hu'
            subst hu'
            exact hf heq.1.symm
        · rw [hanswer]
          exact hpoint.answered a
      by_cases hji : j = i
      · subst hji
        rcases hown t b t' hreach hb with ⟨hanswer, hf⟩ | ⟨hbefore, a, hafter, hdid⟩
        · exact ⟨point, hsame hanswer fun _ => hf⟩
        · have hunpointed : ∀ k a, point ≠ some (k, a) := by
            intro k a hp
            rw [(hpoint.answered a).mpr ⟨k, hp⟩] at hbefore
            cases hbefore
          refine ⟨some (as.length, a), ?_, fun k c u u' hat hne => ?_, fun a' => ?_⟩
          · rintro _ _ ⟨⟩
            exact ⟨b, t, t', stepAt_last ht hb, hdid⟩
          · rcases stepAt_concat.mp hat with hat | ⟨rfl, _⟩
            · exact hpoint.still k c u u' hat (hunpointed k)
            · exact absurd rfl (hne a)
          · rw [hafter]
            constructor
            · rintro ⟨⟩
              exact ⟨as.length, rfl⟩
            · rintro ⟨_, ⟨⟩⟩
              rfl
      · exact ⟨point, hsame (hother t j b t' hji hreach hb) fun heq => absurd heq hji⟩

end Points

end Machine

end Theory
