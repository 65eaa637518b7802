import ClaimTriage.Theory.Except
import ClaimTriage.Theory.Numeral

/-!
# Loaded Documents

A YAML document as a dynamic language holds it, and reading one there.

A document is a graph: a node may be named by an anchor and stand in several
places, in itself as well. So what stands at a node is a function `doc` on the
nodes, and a value is one layer of it, whose parts are nodes again. A document
without anchors is a `Tree`.

The tuples that a sequence tagged as ordered pairs is loaded as are left out.

A reader takes a value to be of some shape without having looked, and what it
does raises a fault where the value is of another. It may also refuse a
document, for a reason of its own. `Settles P x` says of a reading `x` that it
does not end in a fault, and that `P` holds of what it comes to; each operation
has one lemma for when it settles.

## Main definitions

* `Scalar`, `Value`, `Tree`: What a document is made of.
* `Fault`, `Stop`: How a reading ends without a result.
* `find`, `under`: What a key of a mapping is mapped to.
* `contains`, `item`, `get`, `entriesOf`, `iterate`: What is asked of a value.
* `Settles`: A reading ends in no fault.

## Theorems

* `settles_contains`, `settles_item`, `settles_get`, `settles_entriesOf`,
  `settles_iterate`: When each operation settles.
-/

namespace Theory

namespace Yaml

open Text Numeral Failing

/-- A scalar as it is loaded. A floating-point number goes with the text it is
    written as and the integer it is equal to, if it is equal to one; a date or a
    time with its text. -/
inductive Scalar where
  | null
  | bool (b : Bool)
  | int (n : Int)
  | float (shown : Str) (integral : Option Int)
  | text (s : Str)
  | bytes (b : List (Fin 256))
  | date (shown : Str)
  deriving DecidableEq

/-- The integer a scalar is equal to as a number. -/
def Scalar.number : Scalar → Option Int
  | bool b => some b.toNat
  | int n => some n
  | float _ integral => integral
  | _ => none

/-- Two scalars are one key. -/
def Scalar.same (a b : Scalar) : Bool :=
  a = b ∨ (a.number.isSome ∧ a.number = b.number)

/-- What stands at a node: a scalar, a sequence of nodes, a mapping of scalars to
    nodes in the order it is written in, or a set of scalars. -/
inductive Value (N : Type) where
  | scalar (s : Scalar)
  | seq (items : List N)
  | map (entries : List (Scalar × N))
  | set (members : List Scalar)

/-- A document without anchors. -/
inductive Tree where
  | scalar (s : Scalar)
  | seq (items : List Tree)
  | map (entries : List (Scalar × Tree))

/-- What stands at a node of a tree. -/
def Tree.value : Tree → Value Tree
  | scalar s => .scalar s
  | seq items => .seq items
  | map entries => .map entries

/-- What the language raises where a value is not of the shape it is taken for. -/
inductive Fault where
  | type
  | attribute
  | key
  | index
  | value
  | recursion
  deriving DecidableEq

/-- Why a reading has no result: it refused the document, or it raised. -/
inductive Stop (ρ : Type) where
  | refused (reason : ρ)
  | fault (fault : Fault)
  deriving DecidableEq

/-- The reading refused the document. -/
def Stop.Refuses {ρ : Type} : Stop ρ → Prop
  | refused _ => True
  | fault _ => False

section Operations

variable {N ρ : Type} (doc : N → Value N)

namespace Value

/-- The value counts as true. -/
def truthy : Value N → Bool
  | scalar .null => false
  | scalar (.bool b) => b
  | scalar (.int n) => n ≠ 0
  | scalar (.float _ integral) => integral ≠ some 0
  | scalar (.text s) => s ≠ []
  | scalar (.bytes b) => b ≠ []
  | scalar (.date _) => true
  | seq items => !items.isEmpty
  | map entries => !entries.isEmpty
  | set members => !members.isEmpty

/-- The value is this text. -/
def isText (s : Str) : Value N → Bool
  | scalar (.text t) => t = s
  | _ => false

/-- The value can be a member of a set. -/
def hashable : Value N → Bool
  | scalar _ => true
  | seq _ | map _ | set _ => false

end Value

open Yaml.Value

/-- The node a key is mapped to. -/
def find (s : Str) (entries : List (Scalar × N)) : Option N :=
  (entries.find? fun entry => entry.1 = .text s).map Prod.snd

/-- What stands under a key. -/
def under (s : Str) (entries : List (Scalar × N)) : Option (Value N) :=
  (find s entries).map doc

/-- The text is in the value, if it can be asked: in a text it is where it is a part
    of it. -/
def holds (s : Str) : Value N → Option Bool
  | .scalar (.text t) => some (s <:+: t)
  | .scalar _ => none
  | .seq items => some (items.any fun item => (doc item).isText s)
  | .map entries => some (find s entries).isSome
  | .set members => some (.text s ∈ members)

/-- Ask whether a text is in a value. -/
def contains (s : Str) (v : Value N) : Except (Stop ρ) Bool :=
  match holds doc s v with
  | some b => .ok b
  | none => .error (.fault .type)

/-- The value under a key there has to be. -/
def item (s : Str) : Value N → Except (Stop ρ) (Value N)
  | .map entries =>
      match under doc s entries with
      | some v => .ok v
      | none => .error (.fault .key)
  | _ => .error (.fault .type)

/-- The value under a key, if it is there. -/
def get (s : Str) : Value N → Except (Stop ρ) (Option (Value N))
  | .map entries => .ok (under doc s entries)
  | _ => .error (.fault .attribute)

/-- The entries of a mapping, in their order. -/
def entriesOf : Value N → Except (Stop ρ) (List (Scalar × N))
  | .map entries => .ok entries
  | _ => .error (.fault .attribute)

/-- What a value is run through as, if it can be. -/
def elements : Value N → Option (List (Value N))
  | .scalar (.text s) => some (s.map fun c => .scalar (.text [c]))
  | .scalar (.bytes b) => some (b.map fun c => .scalar (.int c.val))
  | .scalar _ => none
  | .seq items => some (items.map doc)
  | .map entries => some (entries.map fun entry => .scalar entry.1)
  | .set members => some (members.map .scalar)

/-- Run through a value. -/
def iterate (v : Value N) : Except (Stop ρ) (List (Value N)) :=
  match elements doc v with
  | some l => .ok l
  | none => .error (.fault .type)

end Operations

section Settles

variable {N ρ α β : Type} {doc : N → Value N}

/-- The reading ends in no fault: it comes to something for which `P` holds, or refuses
    the document. -/
abbrev Settles (P : α → Prop) (x : Except (Stop ρ) α) : Prop :=
  Ends Stop.Refuses P x

theorem settles_pure {P : α → Prop} {a : α} :
    Settles P (pure a : Except (Stop ρ) α) ↔ P a :=
  Iff.rfl

theorem settles_bind {P : β → Prop} {x : Except (Stop ρ) α} {f : α → Except (Stop ρ) β} :
    Settles P (x >>= f) ↔ Settles (fun a => Settles P (f a)) x :=
  ends_bind

theorem settles_congr {P P' : α → Prop} {x : Except (Stop ρ) α} (h : ∀ a, P a ↔ P' a) :
    Settles P x ↔ Settles P' x :=
  ends_congr h

theorem settles_congr_of_ok {P P' : α → Prop} {x : Except (Stop ρ) α}
    (h : ∀ a, x = .ok a → (P a ↔ P' a)) : Settles P x ↔ Settles P' x :=
  ends_congr_of_ok h

/-- What is read next is asked for the same, whatever has been read. -/
theorem settles_bind_of_const {Q Q' : Prop} {x : Except (Stop ρ) α} {f : α → Except (Stop ρ) β}
    (h : ∀ a, Settles (fun _ => Q) (f a) ↔ Q') :
    Settles (fun _ => Q) (x >>= f) ↔ Settles (fun _ => Q') x :=
  settles_bind.trans (settles_congr h)

/-- What has been read once is read again. -/
theorem settles_twice_of_const {Q Q' : Prop} {x : Except (Stop ρ) α}
    {f : α → α → Except (Stop ρ) β} (h : ∀ a, Settles (fun _ => Q) (f a a) ↔ Q') :
    Settles (fun _ => Q) (x >>= fun a => x >>= f a) ↔ Settles (fun _ => Q') x :=
  ends_twice.trans (settles_congr h)

/-- A reading succeeds if it settles and does not refuse. -/
theorem settles_false_of_eq_ok {x : Except (Stop ρ) α} {a : α} (h : x = .ok a) :
    ¬ Settles (fun _ => False) x := by
  rw [h]
  exact not_false

/-- A reading has a result if it settles and does not refuse. -/
theorem exists_ok_iff {x : Except (Stop ρ) α} :
    (∃ a, x = .ok a) ↔ Settles (fun _ => True) x ∧ ¬ Settles (fun _ => False) x := by
  cases x with
  | ok a => exact ⟨fun _ => ⟨trivial, not_false⟩, fun _ => ⟨a, rfl⟩⟩
  | error stop => exact ⟨nofun, fun h => absurd h.1 h.2⟩

/-- A reading refuses if it settles on what nothing holds for. -/
theorem exists_refused_iff {x : Except (Stop ρ) α} :
    (∃ reason, x = .error (.refused reason)) ↔ Settles (fun _ => False) x := by
  cases x with
  | ok a => exact ⟨nofun, False.elim⟩
  | error stop =>
      cases stop with
      | refused reason => exact ⟨fun _ => trivial, fun _ => ⟨reason, rfl⟩⟩
      | fault fault => exact ⟨nofun, False.elim⟩

theorem settles_iff {P : α → Prop} {x : Except (Stop ρ) α} :
    Settles P x ↔ Settles (fun _ => True) x ∧ ∀ a, x = .ok a → P a :=
  ends_iff

theorem settles_mapM {Q : Prop} {f : α → Except (Stop ρ) β} {l : List α} :
    Settles (fun _ => Q) (l.mapM f) ↔ InTurn (fun a q => Settles (fun _ => q) (f a)) l Q :=
  ends_mapM

theorem isText_iff {s : Str} {v : Value N} : v.isText s = true ↔ v = .scalar (.text s) := by
  cases v with
  | scalar t =>
      cases t with
      | text t => simp only [Value.isText, decide_eq_true_eq, Value.scalar.injEq, Scalar.text.injEq]
      | _ => exact ⟨nofun, nofun⟩
  | _ => exact ⟨nofun, nofun⟩

theorem contains_map (s : Str) (entries : List (Scalar × N)) :
    (contains doc s (.map entries) : Except (Stop ρ) Bool) = .ok (find s entries).isSome :=
  rfl

theorem get_map (s : Str) (entries : List (Scalar × N)) :
    (get doc s (.map entries) : Except (Stop ρ) (Option (Value N))) = .ok (under doc s entries) :=
  rfl

theorem item_map {s : Str} {entries : List (Scalar × N)} {v : Value N}
    (h : under doc s entries = some v) :
    (item doc s (.map entries) : Except (Stop ρ) (Value N)) = .ok v := by
  simp only [item, h]

theorem ok_bind (a : α) (f : α → Except (Stop ρ) β) : (.ok a >>= f) = f a :=
  rfl

variable (doc) in
theorem isSome_find {s : Str} {entries : List (Scalar × N)} :
    (find s entries).isSome = (under doc s entries).isSome :=
  Option.isSome_map.symm

theorem item_eq_ok {s : Str} {v w : Value N} :
    (item doc s v : Except (Stop ρ) (Value N)) = .ok w ↔
      ∃ entries, v = .map entries ∧ under doc s entries = some w := by
  cases v with
  | map entries =>
      simp only [item, Value.map.injEq, exists_eq_left']
      cases under doc s entries with
      | none => exact ⟨nofun, nofun⟩
      | some v =>
          exact ⟨fun h => congrArg _ (Except.ok.inj h), fun h => congrArg _ (Option.some.inj h)⟩
  | scalar | seq | set => exact ⟨nofun, fun ⟨_, h, _⟩ => absurd h nofun⟩

theorem get_eq_ok {s : Str} {v : Value N} {w : Option (Value N)} :
    (get doc s v : Except (Stop ρ) (Option (Value N))) = .ok w ↔
      ∃ entries, v = .map entries ∧ under doc s entries = w := by
  cases v with
  | map entries =>
      simp only [get, Value.map.injEq, exists_eq_left', Except.ok.injEq]
  | scalar | seq | set => exact ⟨nofun, fun ⟨_, h, _⟩ => absurd h nofun⟩

theorem entriesOf_eq_ok {v : Value N} {entries : List (Scalar × N)} :
    (entriesOf v : Except (Stop ρ) (List (Scalar × N))) = .ok entries ↔ v = .map entries := by
  cases v with
  | map held => simp only [entriesOf, Except.ok.injEq, Value.map.injEq]
  | scalar | seq | set => exact ⟨nofun, nofun⟩

theorem iterate_eq_ok {v : Value N} {l : List (Value N)} :
    (iterate doc v : Except (Stop ρ) (List (Value N))) = .ok l ↔ elements doc v = some l := by
  unfold iterate
  cases elements doc v with
  | none => exact ⟨nofun, nofun⟩
  | some found =>
      exact ⟨fun h => congrArg _ (Except.ok.inj h), fun h => congrArg _ (Option.some.inj h)⟩

theorem settles_contains {P : Bool → Prop} {s : Str} {v : Value N} :
    Settles P (contains doc s v : Except (Stop ρ) Bool) ↔ ∃ b, holds doc s v = some b ∧ P b := by
  unfold contains
  cases holds doc s v with
  | none => exact ⟨False.elim, fun ⟨_, h, _⟩ => absurd h nofun⟩
  | some b => exact ⟨fun h => ⟨b, rfl, h⟩, fun ⟨_, h, hP⟩ => Option.some.inj h ▸ hP⟩

theorem settles_item {P : Value N → Prop} {s : Str} {v : Value N} :
    Settles P (item doc s v : Except (Stop ρ) (Value N)) ↔
      ∃ entries w, v = .map entries ∧ under doc s entries = some w ∧ P w := by
  cases v with
  | map entries =>
      simp only [item]
      cases hunder : under doc s entries with
      | none =>
          refine ⟨False.elim, ?_⟩
          rintro ⟨_, _, heq, hw, _⟩
          cases heq
          rw [hunder] at hw
          cases hw
      | some w =>
          refine ⟨fun h => ⟨entries, w, rfl, hunder, h⟩, ?_⟩
          rintro ⟨_, _, heq, hw, hP⟩
          cases heq
          rw [hunder] at hw
          cases hw
          exact hP
  | scalar | seq | set => exact ⟨False.elim, fun ⟨_, _, h, _⟩ => absurd h nofun⟩

theorem settles_get {P : Option (Value N) → Prop} {s : Str} {v : Value N} :
    Settles P (get doc s v : Except (Stop ρ) (Option (Value N))) ↔
      ∃ entries, v = .map entries ∧ P (under doc s entries) := by
  cases v with
  | map entries =>
      refine ⟨fun h => ⟨entries, rfl, h⟩, ?_⟩
      rintro ⟨_, heq, hP⟩
      cases heq
      exact hP
  | scalar | seq | set => exact ⟨False.elim, fun ⟨_, h, _⟩ => absurd h nofun⟩

theorem settles_entriesOf {P : List (Scalar × N) → Prop} {v : Value N} :
    Settles P (entriesOf v : Except (Stop ρ) (List (Scalar × N))) ↔
      ∃ entries, v = .map entries ∧ P entries := by
  cases v with
  | map entries =>
      refine ⟨fun h => ⟨entries, rfl, h⟩, ?_⟩
      rintro ⟨_, heq, hP⟩
      cases heq
      exact hP
  | scalar | seq | set => exact ⟨False.elim, fun ⟨_, h, _⟩ => absurd h nofun⟩

theorem settles_iterate {P : List (Value N) → Prop} {v : Value N} :
    Settles P (iterate doc v : Except (Stop ρ) (List (Value N))) ↔
      ∃ l, elements doc v = some l ∧ P l := by
  unfold iterate
  cases elements doc v with
  | none => exact ⟨False.elim, fun ⟨_, h, _⟩ => absurd h nofun⟩
  | some l => exact ⟨fun h => ⟨l, rfl, h⟩, fun ⟨_, h, hP⟩ => Option.some.inj h ▸ hP⟩

end Settles

end Yaml

end Theory
