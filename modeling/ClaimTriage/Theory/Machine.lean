import Mathlib.Data.List.Induction

/-!
# Guarded Machines

A system that takes one action at a time, with as many parties as the actions
name. `step` is partial: `none` says the action is not enabled where the
system stands, which is how waiting for a lock is modelled. A run is a list of
actions, so an interleaving of any number of parties is a list and an induction
over interleavings is an induction over lists.

An invariant is proved once per action and holds of every reachable state by
`Reachable.induct`. What a whole run does to two of its states is proved the
same way, once per action, by `Reachable.run_rel`: a preorder every step
respects is respected by the run.

Where a claim is about one step of a run rather than its end, the run is given
split at that step, and `run_append` is what joins and splits one.

## Main definitions

* `Machine`: Initial states and a guarded step.
* `Machine.run`: Taking a list of actions.
* `Machine.Reachable`: Standing at the end of some run.
* `Machine.Changes`: An action of a run changes what is observed.
* `Machine.Along`: Every action of a run is taken where something holds.
* `Machine.noted`: A machine with something noted of its steps.

## Theorems

* `run_append`: A run of two lists is a run of one after the other.
* `run_of_step`: One enabled action is a run.
* `Reachable.run`: Running on from a reachable state.
* `Reachable.induct`: An invariant of every step is one of every reachable state.
* `Reachable.run_rel`: A preorder of every step is one of every run.
* `run_induct`: What every step keeps, a run keeps.
* `Along.induct`: What steps keep that are taken where something holds, a run
  keeps that takes its steps there.
* `Reachable.along_iff`: What an action keeps exactly where something holds of
  it, a run keeps exactly along such actions.
* `Reachable.changes_iff`: What keeps the record of the actions that changed
  something, step by step, has the record of a run.
* `Reachable.of_simulation`: Reachable states of a machine that simulates
  another map to reachable states of it.
* `reachable_of_noted`: What is noted keeps the machine from nothing.
-/

namespace Theory

/-- A system that takes one action at a time. `step s a = none` is an action
    that is not enabled in `s`: it waits, or it does not apply. -/
structure Machine (σ α : Type*) where
  init : σ → Prop
  step : σ → α → Option σ

namespace Machine

variable {σ α : Type*} (m : Machine σ α)

/-- Take a list of actions in order, or `none` if one of them is not
    enabled. -/
def run : σ → List α → Option σ
  | s, [] => some s
  | s, a :: as => (m.step s a).bind fun s' => run s' as

/-- Standing at the end of some run from an initial state. -/
def Reachable (s : σ) : Prop :=
  ∃ s₀ as, m.init s₀ ∧ m.run s₀ as = some s

/-- Some action of the run that has the property changes what is observed. -/
def Changes {τ : Type*} (f : σ → τ) (P : α → Prop) (s : σ) (as : List α) : Prop :=
  ∃ pre a post t t', as = pre ++ a :: post ∧ P a ∧ m.run s pre = some t ∧
    m.step t a = some t' ∧ f t' ≠ f t

/-- Every action of the run is taken where something holds of it. -/
def Along (G : σ → α → Prop) (s : σ) (as : List α) : Prop :=
  ∀ pre a post t, as = pre ++ a :: post → m.run s pre = some t → G t a

variable {m}

@[simp]
theorem run_nil (s : σ) : m.run s [] = some s := rfl

theorem run_cons (s : σ) (a : α) (as : List α) :
    m.run s (a :: as) = (m.step s a).bind fun s' => m.run s' as := rfl

theorem run_cons_eq_some {s s' : σ} {a : α} {as : List α} :
    m.run s (a :: as) = some s' ↔ ∃ t, m.step s a = some t ∧ m.run t as = some s' := by
  rw [run_cons, Option.bind_eq_some_iff]

/-- A run of two lists is a run of one after the other. -/
theorem run_append {s s' : σ} {as bs : List α} :
    m.run s (as ++ bs) = some s' ↔ ∃ t, m.run s as = some t ∧ m.run t bs = some s' := by
  induction as generalizing s with
  | nil => simp only [List.nil_append, run_nil, Option.some.injEq, exists_eq_left']
  | cons a as ih =>
      rw [List.cons_append, run_cons_eq_some]
      constructor
      · rintro ⟨t, ht, hrun⟩
        rcases ih.mp hrun with ⟨u, hu, hrest⟩
        exact ⟨u, run_cons_eq_some.mpr ⟨t, ht, hu⟩, hrest⟩
      · rintro ⟨u, hu, hrest⟩
        rcases run_cons_eq_some.mp hu with ⟨t, ht, hrun⟩
        exact ⟨t, ht, ih.mpr ⟨u, hrun, hrest⟩⟩

theorem run_of_step {s s' : σ} {a : α} (h : m.step s a = some s') : m.run s [a] = some s' := by
  rw [run_cons, h]
  rfl

theorem reachable_init {s : σ} (h : m.init s) : m.Reachable s :=
  ⟨s, [], h, rfl⟩

/-- Running on from a reachable state. -/
theorem Reachable.run {s s' : σ} {as : List α} (h : m.Reachable s)
    (hrun : m.run s as = some s') : m.Reachable s' := by
  rcases h with ⟨s₀, bs, hinit, hbs⟩
  exact ⟨s₀, bs ++ as, hinit, run_append.mpr ⟨s, hbs, hrun⟩⟩

theorem Reachable.step {s s' : σ} {a : α} (h : m.Reachable s) (hstep : m.step s a = some s') :
    m.Reachable s' :=
  h.run (run_of_step hstep)

/-- What every step keeps, a run keeps. -/
theorem run_induct {P : σ → Prop} (hstep : ∀ s a s', P s → m.step s a = some s' → P s')
    {s s' : σ} {as : List α} (hrun : m.run s as = some s') (hs : P s) : P s' := by
  induction as generalizing s with
  | nil =>
      rw [run_nil, Option.some.injEq] at hrun
      exact hrun ▸ hs
  | cons a as ih =>
      rcases run_cons_eq_some.mp hrun with ⟨t, ht, hrest⟩
      exact ih hrest (hstep s a t hs ht)

/-- What every step keeps that is taken where something holds, a run keeps that
    takes its steps there. -/
theorem Along.induct {G : σ → α → Prop} {P : σ → Prop}
    (hstep : ∀ s a s', P s → G s a → m.step s a = some s' → P s')
    {s s' : σ} {as : List α} (h : m.Along G s as) (hrun : m.run s as = some s') (hs : P s) :
    P s' := by
  induction as generalizing s with
  | nil =>
      rw [run_nil, Option.some.injEq] at hrun
      exact hrun ▸ hs
  | cons a as ih =>
      rcases run_cons_eq_some.mp hrun with ⟨t, ht, hrest⟩
      refine ih (fun pre b post u hsplit hpre => ?_) hrest (hstep s a t hs (h [] a as s rfl rfl) ht)
      refine h (a :: pre) b post u ?_ (run_cons_eq_some.mpr ⟨t, ht, hpre⟩)
      rw [hsplit, List.cons_append]

/-- What holds of every action of a run wherever it is taken. -/
theorem along_of_forall {C : α → Prop} {s : σ} {as : List α} (h : ∀ a ∈ as, C a) :
    m.Along (fun _ => C) s as := by
  rintro pre a post _ rfl _
  exact h a (List.mem_append_right _ List.mem_cons_self)

theorem Along.and {G G' : σ → α → Prop} {s : σ} {as : List α} (h : m.Along G s as)
    (h' : m.Along G' s as) : m.Along (fun t a => G t a ∧ G' t a) s as :=
  fun pre a post t hsplit hpre => ⟨h pre a post t hsplit hpre, h' pre a post t hsplit hpre⟩

theorem along_nil (G : σ → α → Prop) (s : σ) : m.Along G s [] := by
  rintro pre a post _ hsplit
  exact absurd hsplit.symm (List.append_ne_nil_of_right_ne_nil _ (List.cons_ne_nil _ _))

/-- One more action of a run is taken where something holds if the others are
    and it is. -/
theorem along_concat {G : σ → α → Prop} {s t : σ} {as : List α} {b : α}
    (hrun : m.run s as = some t) : m.Along G s (as ++ [b]) ↔ m.Along G s as ∧ G t b := by
  constructor
  · refine fun h => ⟨fun pre a post u hsplit hpre => ?_, h as b [] t rfl hrun⟩
    exact h pre a (post ++ [b]) u (by simp only [hsplit, List.append_assoc, List.cons_append]) hpre
  · rintro ⟨has, hb⟩ pre a post u hsplit hpre
    -- The action is the last one, or one of those before it.
    rcases List.eq_nil_or_concat post with rfl | ⟨post', c, rfl⟩
    · rcases List.append_inj' hsplit rfl with ⟨rfl, hcons⟩
      cases hcons
      rw [hrun, Option.some.injEq] at hpre
      exact hpre ▸ hb
    · rw [List.concat_eq_append, ← List.cons_append, ← List.append_assoc] at hsplit
      exact has pre a post' u (List.append_inj' hsplit rfl).1 hpre

/-- What a step keeps exactly where something holds of its action, and what is
    gone for good where it does not, a run keeps exactly if it takes every
    action there. -/
theorem Reachable.along_iff {G : σ → α → Prop} {P : σ → Prop} {C : α → Prop}
    (hstep : ∀ s a s', m.Reachable s → C a → P s → m.step s a = some s' → (P s' ↔ G s a))
    (hgone : ∀ s a s', m.Reachable s → C a → ¬ P s → m.step s a = some s' → ¬ P s')
    {s s' : σ} {as : List α} (h : m.Reachable s) (hs : P s) (hC : ∀ a ∈ as, C a)
    (hrun : m.run s as = some s') : P s' ↔ m.Along G s as := by
  induction as using List.reverseRecOn generalizing s' with
  | nil =>
      rw [run_nil, Option.some.injEq] at hrun
      exact ⟨fun _ => along_nil G s, fun _ => hrun ▸ hs⟩
  | append_singleton as b ih =>
      rcases run_append.mp hrun with ⟨t, ht, hlast⟩
      rcases run_cons_eq_some.mp hlast with ⟨t', hb, hnil⟩
      rw [run_nil, Option.some.injEq] at hnil
      subst hnil
      have hCb : C b := hC b (List.mem_append_right as (List.mem_singleton_self b))
      rw [along_concat ht, ← ih (fun a ha => hC a (List.mem_append_left _ ha)) ht]
      by_cases hP : P t
      · rw [hstep t b t' (h.run ht) hCb hP hb]
        exact ⟨fun hG => ⟨hP, hG⟩, And.right⟩
      · exact ⟨fun hP' => absurd hP' (hgone t b t' (h.run ht) hCb hP hb), fun h => absurd h.1 hP⟩

/-- What two conditions say of an action is the same along a run, if it is the
    same in every reachable state. -/
theorem Reachable.along_congr {G G' : σ → α → Prop}
    (hiff : ∀ t a, m.Reachable t → (G t a ↔ G' t a)) {s : σ} {as : List α} (h : m.Reachable s) :
    m.Along G s as ↔ m.Along G' s as := by
  constructor
  · exact fun hG pre a post t hsplit hpre =>
      (hiff t a (h.run hpre)).mp (hG pre a post t hsplit hpre)
  · exact fun hG pre a post t hsplit hpre =>
      (hiff t a (h.run hpre)).mpr (hG pre a post t hsplit hpre)

/-- An invariant of every initial state and every step is one of every
    reachable state. -/
theorem Reachable.induct {P : σ → Prop} (hinit : ∀ s, m.init s → P s)
    (hstep : ∀ s a s', P s → m.step s a = some s' → P s') {s : σ} (h : m.Reachable s) : P s := by
  rcases h with ⟨s₀, as, h₀, hrun⟩
  exact run_induct hstep hrun (hinit s₀ h₀)

/-- A preorder that every step out of a reachable state respects is respected
    from one end of a run to the other. -/
theorem Reachable.run_rel {R : σ → σ → Prop} (hrefl : ∀ s, R s s)
    (htrans : ∀ s t u, R s t → R t u → R s u)
    (hstep : ∀ s a s', m.Reachable s → m.step s a = some s' → R s s')
    {s s' : σ} {as : List α} (h : m.Reachable s) (hrun : m.run s as = some s') : R s s' := by
  induction as generalizing s with
  | nil =>
      rw [run_nil, Option.some.injEq] at hrun
      exact hrun ▸ hrefl s
  | cons a as ih =>
      rcases run_cons_eq_some.mp hrun with ⟨t, ht, hrest⟩
      exact htrans s t s' (hstep s a t h ht) (ih (h.step ht) hrest)

/-- What records the actions that change what is observed is right at the end of
    a run, when every step keeps it right. -/
theorem Reachable.changes_iff {τ : Type*} {f : σ → τ} {P : α → Prop} {Q : σ → Prop}
    (hstep : ∀ s a s', m.Reachable s → m.step s a = some s' →
      (Q s' ↔ Q s ∨ (P a ∧ f s' ≠ f s)))
    {s s' : σ} {as : List α} (h : m.Reachable s) (hs : ¬ Q s) (hrun : m.run s as = some s') :
    m.Changes f P s as ↔ Q s' := by
  induction as using List.reverseRecOn generalizing s' with
  | nil =>
      rw [run_nil, Option.some.injEq] at hrun
      subst hrun
      refine ⟨?_, fun hq => absurd hq hs⟩
      rintro ⟨pre, a, post, t, t', hsplit, _⟩
      exact absurd hsplit.symm (List.append_ne_nil_of_right_ne_nil _ (List.cons_ne_nil _ _))
  | append_singleton as b ih =>
      rcases run_append.mp hrun with ⟨t, ht, hlast⟩
      rcases run_cons_eq_some.mp hlast with ⟨t', hb, hnil⟩
      rw [run_nil, Option.some.injEq] at hnil
      subst hnil
      rw [hstep t b t' (h.run ht) hb, ← ih ht]
      constructor
      · rintro ⟨pre, a, post, u, u', hsplit, ha, hpre, hu, hne⟩
        -- The action is the last one, or one of those before it.
        rcases List.eq_nil_or_concat post with rfl | ⟨post', c, rfl⟩
        · rcases List.append_inj' hsplit rfl with ⟨rfl, hcons⟩
          cases hcons
          rw [ht, Option.some.injEq] at hpre
          subst hpre
          rw [hb, Option.some.injEq] at hu
          subst hu
          exact Or.inr ⟨ha, hne⟩
        · rw [List.concat_eq_append, ← List.cons_append, ← List.append_assoc] at hsplit
          rcases List.append_inj' hsplit rfl with ⟨rfl, _⟩
          exact Or.inl ⟨pre, a, post', u, u', rfl, ha, hpre, hu, hne⟩
      · rintro (⟨pre, a, post, u, u', rfl, ha, hpre, hu, hne⟩ | ⟨ha, hne⟩)
        · exact ⟨pre, a, post ++ [b], u, u', by simp only [List.append_assoc, List.cons_append],
            ha, hpre, hu, hne⟩
        · exact ⟨as, b, [], t, t', rfl, ha, ht, hb, hne⟩

/-- Reachable states map to reachable states, when initial ones do and every
    step out of a reachable state is matched by a run, of no steps at all
    where the other machine does not notice. -/
theorem Reachable.of_simulation {τ β : Type*} {n : Machine τ β} (f : σ → τ)
    (hinit : ∀ s, m.init s → n.init (f s))
    (hstep : ∀ s a s', m.Reachable s → m.step s a = some s' →
      ∃ bs, n.run (f s) bs = some (f s'))
    {s : σ} (h : m.Reachable s) : n.Reachable (f s) := by
  rcases h with ⟨s₀, as, h₀, hrun⟩
  have hgen : ∀ as s₁, m.Reachable s₁ → n.Reachable (f s₁) → m.run s₁ as = some s →
      n.Reachable (f s) := by
    intro as
    induction as with
    | nil =>
        intro s₁ _ hn hr
        rw [run_nil, Option.some.injEq] at hr
        exact hr ▸ hn
    | cons a as ih =>
        intro s₁ hm hn hr
        rcases run_cons_eq_some.mp hr with ⟨t, ht, hrest⟩
        rcases hstep s₁ a t hm ht with ⟨bs, hbs⟩
        exact ih t (hm.step ht) (hn.run hbs) hrest
  exact hgen as s₀ (reachable_init h₀) (reachable_init (hinit s₀ h₀)) hrun

/-! ### What is noted of a run -/

section Noted

variable {ω : Type*}

/-- A machine with something noted of every step it takes. -/
def noted (m : Machine σ α) (note : σ → α → σ → ω → ω) (blank : ω) : Machine (σ × ω) α where
  init s := m.init s.1 ∧ s.2 = blank
  step s a := (m.step s.1 a).map fun t => (t, note s.1 a t s.2)

variable {note : σ → α → σ → ω → ω} {blank : ω}

theorem step_of_noted {s s' : σ × ω} {a : α} (h : (m.noted note blank).step s a = some s') :
    ∃ t, m.step s.1 a = some t ∧ s' = (t, note s.1 a t s.2) := by
  rcases Option.map_eq_some_iff.mp h with ⟨t, ht, rfl⟩
  exact ⟨t, ht, rfl⟩

/-- What is noted keeps the machine from nothing, and lets it do nothing else. -/
theorem reachable_of_noted {s : σ × ω} (h : (m.noted note blank).Reachable s) :
    m.Reachable s.1 := by
  refine h.of_simulation Prod.fst (fun t hinit => ?_) fun t a t' _ hstep => ⟨[a], ?_⟩
  · exact And.left hinit
  · rcases step_of_noted hstep with ⟨u, hu, rfl⟩
    exact run_of_step hu

end Noted

end Machine

end Theory
