import ClaimTriage.Theory.Codec

/-!
# Forms of JSON

What becomes of a JSON value when something that is free to write it another
way has had it: a store that keeps an object's fields in its own order and
what a string's code units read as, or a dump that sorts the fields.

Both are one thing with two parameters, what becomes of a string and what
order an object's fields are put in. What a reader by name makes of the result
does not depend on the order, so one set of rules says what is read back
through a codec after a form has had the value: `Reads` relates what was
written to what is read, and the rules put it together field by field.

## Main definitions

* `Form`: What becomes of a string, and the order of an object's fields.
* `Form.apply`: What becomes of a value, if it has the form.
* `Form.sorted`: The fields in order of their keys.
* `Reads`, `ReadsAll`: A value written through a codec is read back as
  another, and the values of a record's fields are.

## Theorems

* `apply_sorted`: The sorted form is the value with its keys sorted.
* `reads_str`, `reads_array`, `reads_record`, `reads_comp`: The rules.
* `Reads.dumps_inj`: The sorted text determines the value.
-/

namespace Theory

open Text

/-- What becomes of a string, if it has the form, and the order the fields of
    an object are put in. A printable text is always kept. -/
structure Form where
  text : Str → Option Str
  order : List (Str × Json) → List (Str × Json)
  text_printable : ∀ s, Printable s → text s = some s
  order_perm : ∀ fields, (order fields).Perm fields

namespace Form

variable (F : Form)

mutual

/-- What becomes of a value, if it has the form. No value written here has one
    key twice, so the last of two is not looked for. -/
def apply : Json → Option Json
  | .null => some .null
  | .bool b => some (.bool b)
  | .int n => some (.int n)
  | .str s => (F.text s).map .str
  | .arr xs => (applyItems xs).map .arr
  | .obj fs => (applyFields fs).map fun fs => .obj (F.order fs)

def applyItems : List Json → Option (List Json)
  | [] => some []
  | x :: xs => (apply x).bind fun y => (applyItems xs).map fun ys => y :: ys

def applyFields : List (Str × Json) → Option (List (Str × Json))
  | [] => some []
  | (k, v) :: fs =>
    (F.text k).bind fun k => (apply v).bind fun v => (applyFields fs).map fun fs => (k, v) :: fs

end

end Form

/-- The fields of every object in order of their keys, and every string as it
    is. -/
def Form.sorted : Form where
  text := some
  order := Json.sortFields
  text_printable _ _ := rfl
  order_perm := Json.sortFields_perm

mutual

/-- The sorted form is the value with its keys sorted. -/
theorem apply_sorted (j : Json) : Form.sorted.apply j = some j.sortKeys := by
  cases j with
  | null | bool | int | str => rfl
  | arr xs => rw [Form.apply, applyItems_sorted xs, Json.sortKeys]; rfl
  | obj fs => rw [Form.apply, applyFields_sorted fs, Json.sortKeys]; rfl

theorem applyItems_sorted (xs : List Json) :
    Form.sorted.applyItems xs = some (Json.sortItems xs) := by
  cases xs with
  | nil => rfl
  | cons x xs =>
      rw [Form.applyItems, apply_sorted x, Option.bind_some, applyItems_sorted xs]
      rfl

theorem applyFields_sorted (fs : List (Str × Json)) :
    Form.sorted.applyFields fs = some (Json.sortValues fs) := by
  cases fs with
  | nil => rfl
  | cons f fs =>
      rcases f with ⟨k, v⟩
      rw [Form.applyFields, apply_sorted v, applyFields_sorted fs]
      rfl

end

/-- A value written through a codec is read back through it, once a form has
    had what was written, as another. -/
def Reads (F : Form) {α : Type} (c : Codec α Json) (a b : α) : Prop :=
  ∃ kept, F.apply (c.encode a) = some kept ∧ c.decode kept = some b

/-- The values of a record's fields are read back as another record's. -/
def ReadsAll (F : Form) {α : Type} (c : Codec α (List Json)) (a b : α) : Prop :=
  ∃ kept, List.Forall₂ (fun v w => F.apply v = some w) (c.encode a) kept ∧ c.decode kept = some b

section Reads

variable {F : Form} {α β : Type}

theorem reads_bool (b : Bool) : Reads F Codec.bool b b :=
  ⟨Json.bool b, rfl, rfl⟩

theorem reads_int (n : Int) : Reads F Codec.int n n :=
  ⟨Json.int n, rfl, rfl⟩

theorem reads_str {c : Codec α Str} {a b : α} {s : Str} (hkept : F.text (c.encode a) = some s)
    (hread : c.decode s = some b) : Reads F c.str a b := by
  refine ⟨Json.str s, ?_, hread⟩
  simp only [Codec.str, Form.apply, hkept, Option.map_some]

/-- A value whose text is kept is read back as it was written. -/
theorem reads_of_text (c : Codec α Str) {a : α} (h : F.text (c.encode a) = some (c.encode a)) :
    Reads F c.str a a :=
  reads_str h (c.decode_encode a)

/-- A value whose text is printable is read back as it was written. -/
theorem reads_of_printable (c : Codec α Str) {a : α} (h : Printable (c.encode a)) :
    Reads F c.str a a :=
  reads_of_text c (F.text_printable _ h)

theorem reads_plain {s t : Str} (h : F.text s = some t) : Reads F Codec.plain.str s t :=
  reads_str h rfl

theorem reads_array {c : Codec α Json} {as bs : List α} (h : List.Forall₂ (Reads F c) as bs) :
    Reads F c.array as bs := by
  have hitems : ∃ kept, F.applyItems (c.list.encode as) = some kept ∧
      c.list.decode kept = some bs := by
    induction h with
    | nil => exact ⟨[], rfl, rfl⟩
    | cons hab _ ih =>
        rcases hab with ⟨kept, hkept, hread⟩
        rcases ih with ⟨rest, hrest, hreadRest⟩
        refine ⟨kept :: rest, ?_, ?_⟩
        · simp only [Codec.list, List.map_cons, Form.applyItems] at hrest ⊢
          rw [hkept, Option.bind_some, hrest, Option.map_some]
        · simp only [Codec.list, List.mapM_cons] at hreadRest ⊢
          rw [hread, hreadRest]
          rfl
  rcases hitems with ⟨kept, hkept, hread⟩
  refine ⟨Json.arr kept, ?_, hread⟩
  simp only [Codec.array, Form.apply, hkept, Option.map_some]

theorem readsAll_nil : ReadsAll F Codec.nil () () :=
  ⟨[], List.Forall₂.nil, rfl⟩

theorem readsAll_cons {c : Codec α Json} {d : Codec β (List Json)} {a a' : α} {b b' : β}
    (h : Reads F c a a') (hs : ReadsAll F d b b') : ReadsAll F (c.cons d) (a, b) (a', b') := by
  rcases h with ⟨value, hvalue, hread⟩
  rcases hs with ⟨values, hvalues, hreads⟩
  refine ⟨value :: values, List.Forall₂.cons hvalue hvalues, ?_⟩
  simp only [Codec.cons, hread, hreads, Option.bind_some, Option.map_some]

/-- The fields of an object are kept under their names. -/
theorem applyFields_zip {names : List Str} {values kept : List Json}
    (hnames : ∀ name ∈ names, Printable name)
    (hvalues : List.Forall₂ (fun v w => F.apply v = some w) values kept) :
    F.applyFields (names.zip values) = some (names.zip kept) := by
  induction hvalues generalizing names with
  | nil =>
      rw [List.zip_nil_right]
      rfl
  | cons hvw _ ih =>
      cases names with
      | nil => rfl
      | cons name names =>
          rw [List.zip_cons_cons, List.zip_cons_cons, Form.applyFields,
            F.text_printable name (hnames name List.mem_cons_self), Option.bind_some, hvw,
            Option.bind_some, ih fun n hn => hnames n (List.mem_cons_of_mem _ hn)]
          rfl

/-- A record is read back as what its fields are read back as: the order the
    form puts them in is undone by their names. -/
theorem reads_record {names : List Str} {c : Codec α (List Json)} (hnodup : names.Nodup)
    (hlen : ∀ a, names.length = (c.encode a).length) (hnames : ∀ name ∈ names, Printable name)
    {a b : α} (h : ReadsAll F c a b) : Reads F (Codec.record names c hnodup hlen) a b := by
  rcases h with ⟨kept, hkept, hread⟩
  have hlenKept : names.length = kept.length := (hlen a).trans hkept.length_eq
  refine ⟨Json.obj (F.order (names.zip kept)), ?_, ?_⟩
  · simp only [Codec.record, Form.apply]
    rw [applyFields_zip hnames hkept, Option.map_some]
  · have hkeys : ((names.zip kept).map (·.1)).Nodup := by
      rw [List.map_fst_zip hlenKept.le]
      exact hnodup
    simp only [Codec.record]
    rw [← Json.record_perm (F.order_perm _).symm hkeys, Json.record_obj hnodup hlenKept,
      Option.bind_some, hread]

/-- A codec that goes through another is read back through it. -/
theorem reads_comp {c : Codec α β} {d : Codec β Json} {a a' : α} {b : β}
    (h : Reads F d (c.encode a) b) (hread : c.decode b = some a') : Reads F (d.comp c) a a' := by
  rcases h with ⟨kept, hkept, hb⟩
  refine ⟨kept, hkept, ?_⟩
  simp only [Codec.comp, hb, Option.bind_some, hread]

/-! ### What has a form -/

theorem text_isSome_of_str {s : Str} (h : (F.apply (.str s)).isSome) : (F.text s).isSome := by
  rw [Form.apply, Option.isSome_map] at h
  exact h

/-- An array has a form only if every item of it does. -/
theorem isSome_of_array {c : Codec α Json} {as : List α}
    (h : (F.apply (c.array.encode as)).isSome) :
    ∀ a ∈ as, (F.apply (c.encode a)).isSome := by
  have hitems : ∀ xs, (F.applyItems xs).isSome → ∀ x ∈ xs, (F.apply x).isSome := by
    intro xs
    induction xs with
    | nil => exact fun _ x hx => absurd hx List.not_mem_nil
    | cons x xs ih =>
        intro hxs
        rcases Option.isSome_iff_exists.mp hxs with ⟨kept, hkept⟩
        rw [Form.applyItems, Option.bind_eq_some_iff] at hkept
        rcases hkept with ⟨y, hy, hrest⟩
        rcases Option.map_eq_some_iff.mp hrest with ⟨ys, hys, _⟩
        exact List.forall_mem_cons.mpr ⟨hy ▸ rfl, ih (hys ▸ rfl)⟩
  simp only [Codec.array, Form.apply, Option.isSome_map] at h
  exact fun a ha => hitems _ h _ (List.mem_map_of_mem ha)

/-- A record has a form only if every field's value does. -/
theorem isSome_of_record {names : List Str} {c : Codec α (List Json)} (hnodup : names.Nodup)
    (hlen : ∀ a, names.length = (c.encode a).length) {a : α}
    (h : (F.apply ((Codec.record names c hnodup hlen).encode a)).isSome) :
    ∀ v ∈ c.encode a, (F.apply v).isSome := by
  have hfields : ∀ (names : List Str) vs, names.length = vs.length →
      (F.applyFields (names.zip vs)).isSome → ∀ v ∈ vs, (F.apply v).isSome := by
    intro names vs
    induction vs generalizing names with
    | nil => exact fun _ _ v hv => absurd hv List.not_mem_nil
    | cons v vs ih =>
        intro hlen hvs
        rcases names with _ | ⟨name, names⟩
        · cases hlen
        rcases Option.isSome_iff_exists.mp hvs with ⟨kept, hkept⟩
        rw [List.zip_cons_cons, Form.applyFields, Option.bind_eq_some_iff] at hkept
        rcases hkept with ⟨_, _, hkept⟩
        rcases Option.bind_eq_some_iff.mp hkept with ⟨w, hw, hrest⟩
        rcases Option.map_eq_some_iff.mp hrest with ⟨ws, hws, _⟩
        exact List.forall_mem_cons.mpr ⟨hw ▸ rfl, ih names (Nat.succ.inj hlen) (hws ▸ rfl)⟩
  simp only [Codec.record, Form.apply, Option.isSome_map] at h
  exact hfields names _ (hlen a) h

/-- Values that are read back off the sorted form are told apart by its text,
    as long as their strings hold no surrogate pair. -/
theorem Reads.dumps_inj {c : Codec α Json} {a b : α} {sp : Bool} (ha : Reads Form.sorted c a a)
    (hb : Reads Form.sorted c b b) (hna : (c.encode a).NoPair) (hnb : (c.encode b).NoPair)
    (h : (c.encode a).sortKeys.dumps sp = (c.encode b).sortKeys.dumps sp) : a = b := by
  have hsorted := Json.dumps_inj sp (Json.noPair_sortKeys _ hna) (Json.noPair_sortKeys _ hnb) h
  rcases ha with ⟨kept, hkept, hread⟩
  rcases hb with ⟨kept', hkept', hread'⟩
  rw [apply_sorted, Option.some.injEq] at hkept hkept'
  rw [← hkept, hsorted, hkept', hread', Option.some.injEq] at hread
  exact hread.symm

end Reads

end Theory
