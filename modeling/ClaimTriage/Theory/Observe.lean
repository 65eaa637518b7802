import ClaimTriage.Theory.Linear
import Mathlib.Logic.Function.Basic

/-!
# Observers of an Object

Calls that only look at what other calls change, any number of times each, among
the steps of the others.

A machine is part of another if every action of the other is one of its own or
leaves it where it stands. A run of the other is then a run of the part among
actions of no concern to it, and each step of the part is found in it at a place
of its own, in the order they were taken in; so where a call of the part takes
effect in its run, it takes effect in the run of the other.

A machine whose calls change an object is part of the machine that has observers
besides. An observer's look shows it the object as it stands, and it answers for
what it has seen. It may look more than once: what an earlier look has shown is
then one of the things that hold of it, and that the calls must not undo. The
observer takes effect at the look that decides its answer. Observers among calls
that are linearizable are linearizable with them, in one history.

## Main definitions

* `Machine.Part`: A machine is part of another.
* `Machine.place`: Where a step of the part is in the part's own run.
* `Machine.Seeing`: What observers do: look, and answer for what they have seen.
* `Machine.observed`: A machine with observers.
* `Either`: An object that does calls and is seen by observers.

## Theorems

* `Part.run`, `Part.stepAt`, `Part.exists_stepAt`: A run of the whole is one of
  the part, step by step.
* `exists_pointed_of_part`: Where a call takes effect in the part, it does in the
  whole.
* `exists_pointed_of_seen`: An observer takes effect at the look that decides its
  answer.
* `exists_linearizes_observed`: Linearizable calls and observers among them have
  one history.
-/

namespace Theory

namespace Machine

/-! ### A machine that is part of another -/

section Part

variable {σ σ' β β' : Type*}

/-- A machine is part of another: an action of the other is one of its own, or
    leaves it where it stands. -/
structure Part (m : Machine σ β) (m' : Machine σ' β') (part : σ' → σ) (own : β' → Option β) :
    Prop where
  takes : ∀ s b a s', m'.step s b = some s' → own b = some a →
    m.step (part s) a = some (part s')
  rests : ∀ s b s', m'.step s b = some s' → own b = none → part s' = part s

/-- How many of the first actions are the part's own. -/
def place (own : β' → Option β) (as : List β') (k : ℕ) : ℕ :=
  ((as.take k).filterMap own).length

variable {m : Machine σ β} {m' : Machine σ' β'} {part : σ' → σ} {own : β' → Option β}

/-- A run of the whole is a run of the part. -/
theorem Part.run (h : Part m m' part own) {s s' : σ'} {as : List β'}
    (hrun : m'.run s as = some s') : m.run (part s) (as.filterMap own) = some (part s') := by
  induction as generalizing s with
  | nil =>
      rw [run_nil, Option.some.injEq] at hrun
      rw [hrun]
      rfl
  | cons b as ih =>
      rcases run_cons_eq_some.mp hrun with ⟨t, hb, hrest⟩
      cases hown : own b with
      | none =>
          rw [List.filterMap_cons_none hown, ← h.rests s b t hb hown]
          exact ih hrest
      | some a =>
          rw [List.filterMap_cons_some hown]
          exact run_cons_eq_some.mpr ⟨part t, h.takes s b a t hb hown, ih hrest⟩

/-- A step of the whole that is the part's own is one of the part's run. -/
theorem Part.stepAt (h : Part m m' part own) {s : σ'} {as : List β'} {k : ℕ} {b : β'} {a : β}
    {t t' : σ'} (hat : m'.StepAt s as k b t t') (hown : own b = some a) :
    m.StepAt (part s) (as.filterMap own) (place own as k) a (part t) (part t') := by
  rcases hat with ⟨hb, hrun, hstep⟩
  rcases List.getElem?_eq_some_iff.mp hb with ⟨hlt, hget⟩
  have hsplit : as.filterMap own =
      (as.take k).filterMap own ++ a :: (as.drop (k + 1)).filterMap own := by
    have hwhole : as = as.take k ++ b :: as.drop (k + 1) := by
      rw [← hget, ← List.drop_eq_getElem_cons hlt, List.take_append_drop]
    calc as.filterMap own = (as.take k ++ b :: as.drop (k + 1)).filterMap own := by rw [← hwhole]
      _ = _ := by rw [List.filterMap_append, List.filterMap_cons_some hown]
  refine ⟨?_, ?_, h.takes t b a t' hstep hown⟩
  · rw [hsplit, place, List.getElem?_append_right (Nat.le_refl _), Nat.sub_self,
      List.getElem?_cons_zero]
  · rw [hsplit, place, List.take_left]
    exact h.run hrun

/-- A step of the part's run is one of the whole's. -/
theorem Part.exists_stepAt (h : Part m m' part own) {s s' : σ'} {as : List β'}
    (hrun : m'.run s as = some s') {n : ℕ} {a : β} {u u' : σ}
    (hat : m.StepAt (part s) (as.filterMap own) n a u u') :
    ∃ k b t t', own b = some a ∧ place own as k = n ∧ m'.StepAt s as k b t t' ∧ part t = u ∧
      part t' = u' := by
  induction as using List.reverseRecOn generalizing s' with
  | nil => cases hat.1
  | append_singleton as b ih =>
      rcases run_append.mp hrun with ⟨t, ht, hlast⟩
      rcases run_cons_eq_some.mp hlast with ⟨t', hb, hnil⟩
      -- A step before the last one is found where it was.
      have hbefore : m.StepAt (part s) (as.filterMap own) n a u u' →
          ∃ k c v v', own c = some a ∧ place own (as ++ [b]) k = n ∧
            m'.StepAt s (as ++ [b]) k c v v' ∧ part v = u ∧ part v' = u' := by
        intro hat
        rcases ih ht hat with ⟨k, c, v, v', hc, hplace, hfound, hv, hv'⟩
        have hlt : k < as.length := (List.getElem?_eq_some_iff.mp hfound.1).1
        refine ⟨k, c, v, v', hc, ?_, hfound.concat, hv, hv'⟩
        rw [← hplace, place, place, List.take_append_of_le_length (Nat.le_of_lt hlt)]
      rw [List.filterMap_append] at hat
      cases hown : own b with
      | none =>
          rw [List.filterMap_cons_none hown, List.filterMap_nil, List.append_nil] at hat
          exact hbefore hat
      | some c =>
          rw [List.filterMap_cons_some hown, List.filterMap_nil] at hat
          rcases stepAt_concat.mp hat with hat | ⟨rfl, rfl, hpart, hstep⟩
          · exact hbefore hat
          · refine ⟨as.length, b, t, t', hown, ?_, stepAt_last ht hb, ?_, ?_⟩
            · rw [place, List.take_left]
            · have heq := hpart.symm.trans (h.run ht)
              rwa [Option.some.injEq, eq_comm] at heq
            · have hu : u = part t := by
                have heq := hpart.symm.trans (h.run ht)
                rwa [Option.some.injEq] at heq
              rw [hu, h.takes t b a t' hb hown, Option.some.injEq] at hstep
              exact hstep

/-- Two steps of the part's own are not at one place of its run. -/
theorem place_inj {as : List β'} {k k' : ℕ} {b b' : β'} {a a' : β} (hb : as[k]? = some b)
    (hb' : as[k']? = some b') (hown : own b = some a) (hown' : own b' = some a')
    (h : place own as k = place own as k') : k = k' := by
  have hless : ∀ {k k' : ℕ} {b : β'} {a : β}, as[k]? = some b → own b = some a → k < k' →
      place own as k < place own as k' := by
    intro k k' b a hb hown hlt
    rcases List.getElem?_eq_some_iff.mp hb with ⟨hk, hget⟩
    have hone : (as.take (k + 1)).filterMap own = (as.take k).filterMap own ++ [a] := by
      rw [List.take_succ_eq_append_getElem hk, hget, List.filterMap_append,
        List.filterMap_cons_some hown, List.filterMap_nil]
    have hprefix : (as.take (k + 1)).filterMap own <+: (as.take k').filterMap own :=
      (List.take_prefix_take_left hlt).filterMap own
    have hle := hprefix.length_le
    rw [hone, List.length_append, List.length_singleton] at hle
    exact hle
  rcases Nat.lt_trichotomy k k' with hlt | heq | hgt
  · exact absurd h (Nat.ne_of_lt (hless hb hown hlt))
  · exact heq
  · exact absurd h.symm (Nat.ne_of_lt (hless hb' hown' hgt))

end Part

section PartPoints

variable {σ σ' ι ι' α α' τ Op Op' Ans Ans' : Type*}
variable {m : Machine σ (ι × α)} {m' : Machine σ' (ι' × α')} {part : σ' → σ}
variable {own : ι' × α' → Option (ι × α)}
variable {does : τ → Op → Ans → τ → Prop} {ops : ι → Op} {f : σ → τ} {answer : σ → ι → Option Ans}
variable {does' : τ → Op' → Ans' → τ → Prop} {ops' : ι' → Op'} {f' : σ' → τ}
variable {answer' : σ' → ι' → Option Ans'} {i : ι} {i' : ι'} {e : Ans → Ans'}

/-- Where a call takes effect in the part, it does in the whole. -/
theorem exists_pointed_of_part (h : Part m m' part own)
    (hown : ∀ s b s', m'.step s (i', b) = some s' → ∃ a, own (i', b) = some (i, a))
    (honly : ∀ b a, own b = some (i, a) → b.1 = i') (hf : ∀ s, f' s = f (part s))
    (hdoes : ∀ t a u, does t (ops i) a u → does' t (ops' i') (e a) u)
    (hanswer : ∀ s, answer' s i' = (answer (part s) i).map e) {s s' : σ'} {as : List (ι' × α')}
    (hrun : m'.run s as = some s')
    (hpointed : ∃ point, Pointed does ops f answer m (part s) (as.filterMap own) (part s') i
      point) :
    ∃ point, Pointed does' ops' f' answer' m' s as s' i' point := by
  rcases hpointed with ⟨point, hpoint⟩
  -- Nothing is seen of a step that is not at the point.
  have hstill : ∀ k b t t', m'.StepAt s as k (i', b) t t' →
      (∀ a, point ≠ some (place own as k, a)) → f' t' = f' t := by
    intro k b t t' hat hne
    rcases hown t b t' hat.2.2 with ⟨a, ha⟩
    rw [hf, hf]
    exact hpoint.still _ a _ _ (h.stepAt hat ha) hne
  have hanswered : ∀ a, answer' s' i' = some a ↔ ∃ n a₀, point = some (n, a₀) ∧ e a₀ = a := by
    intro a
    rw [hanswer, Option.map_eq_some_iff]
    constructor
    · rintro ⟨a₀, ha₀, hea⟩
      rcases (hpoint.answered a₀).mp ha₀ with ⟨n, hn⟩
      exact ⟨n, a₀, hn, hea⟩
    · rintro ⟨n, a₀, hn, hea⟩
      exact ⟨a₀, (hpoint.answered a₀).mpr ⟨n, hn⟩, hea⟩
  cases point with
  | none =>
      refine ⟨none, nofun, fun k b t t' hat _ => hstill k b t t' hat nofun, fun a => ?_⟩
      rw [hanswered]
      constructor
      · rintro ⟨n, a₀, ⟨⟩, _⟩
      · rintro ⟨k, ⟨⟩⟩
  | some p =>
      rcases p with ⟨n, a₀⟩
      rcases hpoint.effect n a₀ rfl with ⟨a, u, u', hat, hdid⟩
      rcases h.exists_stepAt hrun hat with ⟨k, ⟨j, b⟩, t, t', hb, hplace, hfound, rfl, rfl⟩
      have hj : j = i' := honly _ _ hb
      subst hj
      refine ⟨some (k, e a₀), ?_, fun k' b' v v' hat' hne => ?_, fun a' => ?_⟩
      · rintro _ _ ⟨⟩
        refine ⟨b, t, t', hfound, ?_⟩
        rw [hf, hf]
        exact hdoes _ _ _ hdid
      · refine hstill k' b' v v' hat' ?_
        rintro a' ⟨⟩
        rcases hown v b' v' hat'.2.2 with ⟨c, hc⟩
        have hk : k = k' := place_inj hfound.1 hat'.1 hb hc hplace
        exact hne (e a₀) (by rw [hk])
      · rw [hanswered]
        constructor
        · rintro ⟨_, _, ⟨⟩, rfl⟩
          exact ⟨k, rfl⟩
        · rintro ⟨_, ⟨⟩⟩
          exact ⟨n, a₀, rfl, rfl⟩

end PartPoints

/-! ### Observers -/

section Seen

variable {σ ι α τ Op Ans : Type*} {m : Machine σ (ι × α)}
variable {does : τ → Op → Ans → τ → Prop} {ops : ι → Op} {f : σ → τ} {answer : σ → ι → Option Ans}
variable {i : ι} {seen : σ → Option Ans}

variable (seen) in
/-- A call that leaves the object as it is takes effect at the step at which it sees
    what it will answer. -/
theorem exists_pointed_of_seen
    (hstill : ∀ t b t', m.Reachable t → m.step t (i, b) = some t' → f t' = f t)
    (hsees : ∀ t j b t' a, m.Reachable t → m.step t (j, b) = some t' → seen t' = some a →
      seen t = some a ∨ j = i ∧ does (f t) (ops i) a (f t'))
    (hanswer : ∀ t a, m.Reachable t → answer t i = some a → seen t = some a) {s s' : σ}
    (hinit : m.init s) (hnone : seen s = none) {as : List (ι × α)}
    (hrun : m.run s as = some s') :
    ∃ point, Pointed does ops f answer m s as s' i point := by
  have hpast : ∀ a, seen s' = some a → ∃ k b t t',
      m.StepAt s as k (i, b) t t' ∧ does (f t) (ops i) a (f t') := by
    clear hstill hanswer
    induction as using List.reverseRecOn generalizing s' with
    | nil =>
        rw [run_nil, Option.some.injEq] at hrun
        subst hrun
        intro a ha
        rw [hnone] at ha
        cases ha
    | append_singleton as b ih =>
        rcases b with ⟨j, b⟩
        rcases run_append.mp hrun with ⟨t, ht, hlast⟩
        rcases run_cons_eq_some.mp hlast with ⟨t', hb, hnil⟩
        rw [run_nil, Option.some.injEq] at hnil
        subst hnil
        intro a ha
        rcases hsees t j b t' a ⟨s, as, hinit, ht⟩ hb ha with hbefore | ⟨rfl, hdid⟩
        · rcases ih ht a hbefore with ⟨k, c, v, v', hat, hdid⟩
          exact ⟨k, c, v, v', hat.concat, hdid⟩
        · exact ⟨as.length, b, t, t', stepAt_last ht hb, hdid⟩
  have hquiet : ∀ k b t t', m.StepAt s as k (i, b) t t' → f t' = f t := fun k b t t' hat =>
    hstill t b t' ⟨s, as.take k, hinit, hat.2.1⟩ hat.2.2
  cases hgiven : answer s' i with
  | none =>
      refine ⟨none, nofun, fun k b t t' hat _ => hquiet k b t t' hat, fun a => ?_⟩
      simp only [hgiven, reduceCtorEq, exists_false]
  | some a =>
      rcases hpast a (hanswer s' a ⟨s, as, hinit, hrun⟩ hgiven) with ⟨k, b, t, t', hat, hdid⟩
      refine ⟨some (k, a), ?_, fun k b t t' hat _ => hquiet k b t t' hat, fun a' => ?_⟩
      · rintro _ _ ⟨⟩
        exact ⟨b, t, t', hat, hdid⟩
      · rw [hgiven]
        constructor
        · rintro ⟨⟩
          exact ⟨k, rfl⟩
        · rintro ⟨_, ⟨⟩⟩
          rfl

end Seen

end Machine

/-- What observers of an object do: where one begins, what a look of it comes to on
    the object as it stands, what it has seen, and what it has answered, which is
    something it has seen. -/
structure Seeing (τ Op Ans ρ γ : Type*) where
  begins : ρ
  look : τ → Op → ρ → γ → Option ρ
  seen : ρ → Option Ans
  told : ρ → Option Ans
  seen_begins : seen begins = none
  seen_of_told : ∀ r a, told r = some a → seen r = some a

/-- An object that does what calls ask and is seen by observers. -/
inductive Either {τ Op Op' Ans Ans' : Type*} (does : τ → Op → Ans → τ → Prop)
    (sees : τ → Op' → Ans' → Prop) : τ → Op ⊕ Op' → Ans ⊕ Ans' → τ → Prop
  | does {t u : τ} {op : Op} {a : Ans} : does t op a u → Either does sees t (.inl op) (.inl a) u
  | sees {t : τ} {op : Op'} {a : Ans'} : sees t op a → Either does sees t (.inr op) (.inr a) t

namespace Machine

section Observed

variable {σ ι κ α γ τ Op Op' Ans Ans' ρ : Type*} [DecidableEq κ]

/-- A machine with observers, each of which looks at what there is of the object. -/
def observed (m : Machine σ (ι × α)) (f : σ → τ) (w : Seeing τ Op' Ans' ρ γ) (reads : κ → Op') :
    Machine (σ × (κ → ρ)) ((ι ⊕ κ) × (α ⊕ γ)) where
  init s := m.init s.1 ∧ s.2 = fun _ => w.begins
  step s
    | (.inl i, .inl a) => (m.step s.1 (i, a)).map fun t => (t, s.2)
    | (.inr j, .inr g) =>
      (w.look (f s.1) (reads j) (s.2 j) g).map fun r => (s.1, Function.update s.2 j r)
    | _ => none

/-- The action of the machine an action with observers is, if it is one. -/
def unobserved : (ι ⊕ κ) × (α ⊕ γ) → Option (ι × α)
  | (.inl i, .inl a) => some (i, a)
  | _ => none

/-- What a call or an observer has answered. -/
def answers (answer : σ → ι → Option Ans) (w : Seeing τ Op' Ans' ρ γ) (s : σ × (κ → ρ)) :
    ι ⊕ κ → Option (Ans ⊕ Ans')
  | .inl i => (answer s.1 i).map .inl
  | .inr j => (w.told (s.2 j)).map .inr

variable {m : Machine σ (ι × α)} {f : σ → τ} {w : Seeing τ Op' Ans' ρ γ} {reads : κ → Op'}

/-- What a step with observers is: a step of the machine, or a look. -/
theorem observed_cases {s s' : σ × (κ → ρ)} {b : (ι ⊕ κ) × (α ⊕ γ)}
    (h : (observed m f w reads).step s b = some s') :
    (∃ i a t, b = (.inl i, .inl a) ∧ m.step s.1 (i, a) = some t ∧ s' = (t, s.2)) ∨
    ∃ j g r, b = (.inr j, .inr g) ∧ w.look (f s.1) (reads j) (s.2 j) g = some r ∧
      s' = (s.1, Function.update s.2 j r) := by
  rcases b with ⟨i | j, a | g⟩
  · rcases Option.map_eq_some_iff.mp h with ⟨t, ht, rfl⟩
    exact Or.inl ⟨i, a, t, rfl, ht, rfl⟩
  · cases h
  · cases h
  · rcases Option.map_eq_some_iff.mp h with ⟨r, hr, rfl⟩
    exact Or.inr ⟨j, g, r, rfl, hr, rfl⟩

/-- A machine is part of what it is with observers. -/
theorem part_observed : Part m (observed m f w reads) Prod.fst unobserved where
  takes s b a s' hstep hown := by
    rcases observed_cases hstep with ⟨i, c, t, rfl, ht, rfl⟩ | ⟨j, g, r, rfl, _, _⟩
    · cases hown
      exact ht
    · cases hown
  rests s b s' hstep hown := by
    rcases observed_cases hstep with ⟨i, c, t, rfl, _, _⟩ | ⟨j, g, r, rfl, _, rfl⟩
    · cases hown
    · rfl

theorem reachable_of_observed {s : σ × (κ → ρ)} (h : (observed m f w reads).Reachable s) :
    m.Reachable s.1 := by
  rcases h with ⟨s₀, as, hinit, hrun⟩
  exact ⟨s₀.1, as.filterMap unobserved, hinit.1, part_observed.run hrun⟩

variable {does : τ → Op → Ans → τ → Prop} {ops : ι → Op} {answer : σ → ι → Option Ans}
variable {sees : τ → Op' → Ans' → Prop} {I : τ → Op' → ρ → Prop}

/-- What holds of an observer where it stands. -/
theorem holds_of_observed (hbegins : ∀ t op, I t op w.begins)
    (hkept : ∀ s i a s' op r, m.Reachable s → m.step s (i, a) = some s' → I (f s) op r →
      I (f s') op r)
    (hlook : ∀ t op r g r', I t op r → w.look t op r g = some r' → I t op r')
    {s : σ × (κ → ρ)} (h : (observed m f w reads).Reachable s) (j : κ) :
    I (f s.1) (reads j) (s.2 j) := by
  have hinv : (observed m f w reads).Reachable s ∧ ∀ j, I (f s.1) (reads j) (s.2 j) := by
    refine h.induct (P := fun s => (observed m f w reads).Reachable s ∧
      ∀ j, I (f s.1) (reads j) (s.2 j)) ?_ ?_
    · intro s hinit
      refine ⟨reachable_init hinit, fun j => ?_⟩
      rw [hinit.2]
      exact hbegins _ _
    · rintro s b s' ⟨hs, hall⟩ hstep
      refine ⟨hs.step hstep, fun j => ?_⟩
      rcases observed_cases hstep with ⟨i, a, t, _, ht, rfl⟩ | ⟨k, g, r, _, hr, rfl⟩
      · exact hkept s.1 i a t _ _ (reachable_of_observed hs) ht (hall j)
      · by_cases hjk : j = k
        · subst hjk
          simp only [Function.update_self]
          exact hlook _ _ _ _ _ (hall j) hr
        · simp only [Function.update_of_ne hjk]
          exact hall j
  exact hinv.2 j

/-- Linearizable calls and observers among them have one history: if each call takes
    effect somewhere in every run, and what decides an observer's answer is what
    the object shows there, given what holds of the observer. -/
theorem exists_linearizes_observed
    (hpointed : ∀ s as s', m.init s → m.run s as = some s' → ∀ i, ∃ point,
      Pointed does ops f answer m s as s' i point)
    (hbegins : ∀ t op, I t op w.begins)
    (hkept : ∀ s i a s' op r, m.Reachable s → m.step s (i, a) = some s' → I (f s) op r →
      I (f s') op r)
    (hlook : ∀ t op r g r', I t op r → w.look t op r g = some r' → I t op r')
    (hsees : ∀ t op r g r' a, I t op r → w.look t op r g = some r' → w.seen r' = some a →
      w.seen r = some a ∨ sees t op a)
    {s s' : σ × (κ → ρ)} {as : List ((ι ⊕ κ) × (α ⊕ γ))} (hinit : (observed m f w reads).init s)
    (hrun : (observed m f w reads).run s as = some s') :
    ∃ history, Linearizes (Either does sees) (Sum.map ops reads) (fun s => f s.1)
      (answers answer w) s as s' history := by
  refine exists_linearizes hrun fun i => ?_
  cases i with
  | inl i =>
      have hpart : Part m (observed m f w reads) Prod.fst unobserved := part_observed
      refine exists_pointed_of_part (e := Sum.inl) hpart ?_ ?_ (fun _ => rfl)
        (fun _ _ _ => .does) (fun _ => rfl) hrun (hpointed _ _ _ hinit.1 (hpart.run hrun) i)
      · intro s b s' hstep
        rcases observed_cases hstep with ⟨_, a, _, heq, _, _⟩ | ⟨_, _, _, heq, _, _⟩
        · cases heq
          exact ⟨a, rfl⟩
        · cases heq
      · rintro ⟨j | j, c | c⟩ a heq
        · cases heq
          rfl
        · cases heq
        · cases heq
        · cases heq
  | inr j =>
      refine exists_pointed_of_seen (fun s => (w.seen (s.2 j)).map .inr) ?_ ?_ ?_ hinit ?_ hrun
      · intro t b t' _ hstep
        rcases observed_cases hstep with ⟨_, _, _, heq, _, _⟩ | ⟨_, _, _, _, _, rfl⟩
        · cases heq
        · rfl
      · intro t k b t' a ht hstep ha
        rcases Option.map_eq_some_iff.mp ha with ⟨a', ha', rfl⟩
        rcases observed_cases hstep with ⟨_, _, _, _, _, rfl⟩ | ⟨j', g, r, heq, hr, rfl⟩
        · exact Or.inl (Option.map_eq_some_iff.mpr ⟨a', ha', rfl⟩)
        · by_cases hj : j = j'
          · subst hj
            cases heq
            simp only [Function.update_self] at ha'
            rcases hsees _ _ _ _ _ _ (holds_of_observed hbegins hkept hlook ht j) hr ha' with
              hbefore | hnow
            · exact Or.inl (Option.map_eq_some_iff.mpr ⟨a', hbefore, rfl⟩)
            · exact Or.inr ⟨rfl, .sees hnow⟩
          · simp only [Function.update_of_ne hj] at ha'
            exact Or.inl (Option.map_eq_some_iff.mpr ⟨a', ha', rfl⟩)
      · intro t a _ ha
        rcases Option.map_eq_some_iff.mp ha with ⟨a', ha', rfl⟩
        exact Option.map_eq_some_iff.mpr ⟨a', w.seen_of_told _ _ ha', rfl⟩
      · rw [hinit.2, w.seen_begins]
        rfl

end Observed

end Machine

end Theory
