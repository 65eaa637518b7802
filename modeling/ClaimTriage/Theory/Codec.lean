import ClaimTriage.Theory.Calendar
import ClaimTriage.Theory.Decimal
import ClaimTriage.Theory.Json

/-!
# Codecs

A value's written form together with the reader that undoes it. The round trip
is a field, so a codec that loses something cannot be built, and a record's
codec is put together out of its fields' codecs without proving it again.

A reader here takes what the writer writes. A parser that also takes other
spellings of the same value agrees with it on everything the writer wrote,
which is all that is ever read back.

An object is read by its fields' names and not by their order: `record` takes
an object that has exactly the fields a model names, and `record_perm` is that
the order they stand in makes no difference, so a store that reorders them
loses nothing.

## Main definitions

* `Codec`: A writer, a reader and the round trip between them.
* `Codec.named`: A value of an enumeration by its name.
* `Codec.str`, `Codec.array`: Texts and lists as JSON.
* `Codec.cons`, `Codec.record`: The fields of a record, and the record.
* `Json.record`: The values of the fields a model names, in its order.

## Theorems

* `Codec.encode_inj`: What is written determines what was written.
* `Json.record_obj`: A record is read back from the object of its fields.
* `Json.record_perm`: The order of the fields makes no difference.
-/

namespace Theory

/-- A writer and the reader that undoes it. -/
structure Codec (α β : Type) where
  encode : α → β
  decode : β → Option α
  decode_encode : ∀ a, decode (encode a) = some a

namespace Codec

variable {α β γ : Type}

/-- What is written determines what was written. -/
theorem encode_inj (c : Codec α β) {a b : α} (h : c.encode a = c.encode b) : a = b := by
  have ha := c.decode_encode a
  rw [h, c.decode_encode b] at ha
  exact (Option.some.inj ha).symm

/-- One codec after another. -/
def comp (d : Codec β γ) (c : Codec α β) : Codec α γ where
  encode a := d.encode (c.encode a)
  decode s := (d.decode s).bind c.decode
  decode_encode a := by rw [d.decode_encode, Option.bind_some, c.decode_encode]

/-- A list, item by item. -/
def list (c : Codec α β) : Codec (List α) (List β) where
  encode := List.map c.encode
  decode := List.mapM c.decode
  decode_encode as := by
    induction as with
    | nil => rfl
    | cons a as ih => simp only [List.map_cons, List.mapM_cons, c.decode_encode, ih,
        Option.bind_eq_bind, Option.bind_some, Option.pure_def]

/-- A value of an enumeration by its name. -/
def named {α : Type} (all : List α) (name : α → Str) (hall : ∀ a, a ∈ all)
    (hname : ∀ a b, name a = name b → a = b) : Codec α Str where
  encode := name
  decode s := all.find? (name · = s)
  decode_encode a := by
    cases h : all.find? (name · = name a) with
    | none =>
        have hnone := List.find?_eq_none.mp h a (hall a)
        exact absurd (decide_eq_true rfl) hnone
    | some b =>
        have hb := List.find?_some h
        rw [hname b a (of_decide_eq_true hb)]

/-- A text as it is. -/
def plain : Codec Str Str where
  encode := id
  decode := some
  decode_encode _ := rfl

/-- A date by its ISO text. -/
def date : Codec Calendar.Date Str where
  encode := Calendar.Date.isoformat
  decode := Calendar.Date.fromisoformat
  decode_encode := Calendar.Date.fromisoformat_isoformat

/-- A moment by its text. -/
def moment : Codec Calendar.Moment Str where
  encode := Calendar.Moment.wire
  decode := Calendar.Moment.ofWire
  decode_encode := Calendar.Moment.ofWire_wire

/-- A decimal number by its text. -/
def decimal : Codec Decimal Str where
  encode := Decimal.text
  decode s := some (Decimal.ofText s)
  decode_encode d := congrArg some (Decimal.ofText_text d)

/-- A value written as a text, as a JSON string. -/
def str (c : Codec α Str) : Codec α Json where
  encode a := Json.str (c.encode a)
  decode
    | .str s => c.decode s
    | _ => none
  decode_encode := c.decode_encode

/-- A JSON boolean. -/
def bool : Codec Bool Json where
  encode := Json.bool
  decode
    | .bool b => some b
    | _ => none
  decode_encode _ := rfl

/-- A JSON integer. -/
def int : Codec Int Json where
  encode := Json.int
  decode
    | .int n => some n
    | _ => none
  decode_encode _ := rfl

/-- A list as a JSON array. -/
def array (c : Codec α Json) : Codec (List α) Json where
  encode as := Json.arr (c.list.encode as)
  decode
    | .arr items => c.list.decode items
    | _ => none
  decode_encode := c.list.decode_encode

/-- No values. -/
def nil : Codec Unit (List Json) where
  encode _ := []
  decode
    | [] => some ()
    | _ => none
  decode_encode _ := rfl

/-- One value before others. -/
def cons (c : Codec α Json) (d : Codec β (List Json)) : Codec (α × β) (List Json) where
  encode ab := c.encode ab.1 :: d.encode ab.2
  decode
    | [] => none
    | value :: values => (c.decode value).bind fun a => (d.decode values).map fun b => (a, b)
  decode_encode ab := by
    simp only [c.decode_encode, d.decode_encode, Option.bind_some, Option.map_some]

end Codec

namespace Json

/-- The values of the fields a model names, in the model's order, of an object
    that has those fields and no others. -/
def record (names : List Str) : Json → Option (List Json)
  | obj fields =>
    if ∀ f ∈ fields, f.1 ∈ names then names.mapM fun name => fields.lookup name else none
  | _ => none

/-- Looking the keys up gives the values they stand with. -/
theorem mapM_lookup_zip {names : List Str} {values : List Json} (hnodup : names.Nodup)
    (hlen : names.length = values.length) :
    names.mapM (fun name => (names.zip values).lookup name) = some values := by
  have hall : ∀ pre : List (Str × Json), (∀ name ∈ names, pre.lookup name = none) →
      names.mapM (fun name => (pre ++ names.zip values).lookup name) = some values := by
    induction names generalizing values with
    | nil =>
        intro pre _
        rw [List.length_nil] at hlen
        rw [List.eq_nil_of_length_eq_zero hlen.symm]
        rfl
    | cons name names ih =>
        intro pre hpre
        rcases values with _ | ⟨value, values⟩
        · cases hlen
        rcases List.nodup_cons.mp hnodup with ⟨hnotin, hrest⟩
        -- The keys before this one are those already looked up.
        have hstep := ih hrest (Nat.succ.inj hlen) (pre ++ [(name, value)]) (by
          intro other hother
          have hne : (other == name) = false := by
            refine beq_eq_false_iff_ne.mpr ?_
            rintro rfl
            exact hnotin hother
          rw [List.lookup_append, hpre other (List.mem_cons_of_mem _ hother), List.lookup_cons,
            hne]
          rfl)
        rw [List.append_assoc] at hstep
        have hhead : (pre ++ (name :: names).zip (value :: values)).lookup name = some value := by
          rw [List.lookup_append, hpre name List.mem_cons_self, List.zip_cons_cons,
            List.lookup_cons_self]
          rfl
        rw [List.mapM_cons, hhead]
        simp only [List.zip_cons_cons, Option.bind_eq_bind, Option.bind_some]
        rw [show pre ++ (name, value) :: names.zip values =
          pre ++ ([(name, value)] ++ names.zip values) from rfl, hstep]
        rfl
  exact hall [] (fun _ _ => rfl)

/-- A record is read back from the object of its fields. -/
theorem record_obj {names : List Str} {values : List Json} (hnodup : names.Nodup)
    (hlen : names.length = values.length) :
    record names (obj (names.zip values)) = some values := by
  have hmem : ∀ f ∈ names.zip values, f.1 ∈ names := fun f hf => (List.of_mem_zip hf).1
  rw [record, if_pos hmem, mapM_lookup_zip hnodup hlen]

/-- With no key twice, what a key stands with is what it is listed with. -/
theorem lookup_eq_some_iff_mem {fields : List (Str × Json)} (hnodup : (fields.map (·.1)).Nodup)
    {name : Str} {value : Json} :
    fields.lookup name = some value ↔ (name, value) ∈ fields := by
  induction fields with
  | nil => simp only [List.lookup_nil, reduceCtorEq, List.not_mem_nil]
  | cons f fields ih =>
      rcases f with ⟨k, v⟩
      rcases List.nodup_cons.mp hnodup with ⟨hnotin, hrest⟩
      rw [List.lookup_cons, List.mem_cons]
      by_cases hk : name = k
      · subst hk
        simp only [beq_self_eq_true, Option.some.injEq, Prod.mk.injEq]
        refine ⟨fun h => Or.inl ⟨trivial, h.symm⟩, ?_⟩
        rintro (⟨_, h⟩ | h)
        · exact h.symm
        · exact absurd (List.mem_map_of_mem h) hnotin
      · rw [beq_eq_false_iff_ne.mpr hk, Prod.mk.injEq]
        simp only [ih hrest]
        exact ⟨Or.inr, fun h => h.resolve_left fun h => hk h.1⟩

/-- The order the fields of an object stand in makes no difference. -/
theorem record_perm {names : List Str} {fields fields' : List (Str × Json)}
    (hperm : fields.Perm fields') (hnodup : (fields.map (·.1)).Nodup) :
    record names (obj fields) = record names (obj fields') := by
  have hnodup' : (fields'.map (·.1)).Nodup := (hperm.map _).nodup_iff.mp hnodup
  have hlookup : ∀ name, fields.lookup name = fields'.lookup name := by
    intro name
    refine Option.ext fun value => ?_
    rw [lookup_eq_some_iff_mem hnodup, lookup_eq_some_iff_mem hnodup', hperm.mem_iff]
  have hmem : (∀ f ∈ fields, f.1 ∈ names) ↔ ∀ f ∈ fields', f.1 ∈ names := by
    simp only [hperm.mem_iff]
  simp only [record, hmem, hlookup]

/-- Every key looked up with success is looked up. -/
theorem isSome_lookup_of_mapM {names : List Str} {fields : List (Str × Json)} {values : List Json}
    (h : names.mapM (fun name => fields.lookup name) = some values) :
    ∀ name ∈ names, (fields.lookup name).isSome := by
  induction names generalizing values with
  | nil => exact fun _ hname => absurd hname List.not_mem_nil
  | cons name names ih =>
      rw [List.mapM_cons, Option.bind_eq_bind, Option.bind_eq_some_iff] at h
      rcases h with ⟨value, hvalue, hrest⟩
      rw [Option.bind_eq_bind, Option.bind_eq_some_iff] at hrest
      rcases hrest with ⟨values', hvalues', _⟩
      exact List.forall_mem_cons.mpr ⟨hvalue ▸ rfl, ih hvalues'⟩

/-- An object that has the fields of one model is none of a model that lacks one
    of them. -/
theorem record_eq_none {names names' : List Str} {j : Json} {values : List Json} {name : Str}
    (h : record names j = some values) (hname : name ∈ names) (hnot : name ∉ names') :
    record names' j = none := by
  cases j with
  | obj fields =>
      simp only [record] at h ⊢
      by_cases hall : ∀ f ∈ fields, f.1 ∈ names'
      · -- The object has the field, so the other model would have to name it.
        exfalso
        by_cases hmem : ∀ f ∈ fields, f.1 ∈ names
        · rw [if_pos hmem] at h
          rcases Option.isSome_iff_exists.mp (isSome_lookup_of_mapM h name hname) with ⟨v, hv⟩
          rcases List.lookup_eq_some_iff.mp hv with ⟨before, after, rfl, _⟩
          exact hnot (hall (name, v) (List.mem_append_right _ List.mem_cons_self))
        · rw [if_neg hmem] at h
          cases h
      · rw [if_neg hall]
  | null | bool | int | str | arr => rfl

/-- Objects of the same keys that are one once sorted have the same values. -/
theorem values_eq_of_sortFields_eq {names : List Str} {vs ws : List Json} (hnodup : names.Nodup)
    (hvs : names.length = vs.length) (hws : names.length = ws.length)
    (h : sortFields (names.zip vs) = sortFields (names.zip ws)) : vs = ws := by
  have hperm : (names.zip vs).Perm (names.zip ws) := by
    have hsorted := sortFields_perm (names.zip vs)
    rw [h] at hsorted
    exact hsorted.symm.trans (sortFields_perm _)
  have hkeys : ((names.zip vs).map (·.1)).Nodup := by
    rw [List.map_fst_zip hvs.le]
    exact hnodup
  have hrecord := @record_perm names _ _ hperm hkeys
  rw [record_obj hnodup hvs, record_obj hnodup hws, Option.some.injEq] at hrecord
  exact hrecord

/-- Strings stand as they are when their object is sorted. -/
theorem sortValues_zip_str (names ss : List Str) :
    sortValues (names.zip (ss.map str)) = names.zip (ss.map str) := by
  induction names generalizing ss with
  | nil => rfl
  | cons name names ih =>
      cases ss with
      | nil => rfl
      | cons s ss => simp only [List.map_cons, List.zip_cons_cons, sortValues, sortKeys, ih]

theorem noPairFields_zip_str {names ss : List Str} (hnames : ∀ name ∈ names, Text.NoPair name)
    (hss : ∀ s ∈ ss, Text.NoPair s) : NoPairFields (names.zip (ss.map str)) := by
  refine noPairFields_iff.mpr fun f hf => ?_
  rcases List.of_mem_zip hf with ⟨hname, hvalue⟩
  rcases List.mem_map.mp hvalue with ⟨s, hs, hstr⟩
  rw [← hstr]
  exact ⟨hnames _ hname, hss s hs⟩

end Json

/-- The codec of a record: its fields' values, under the names the model
    gives them. -/
def Codec.record {α : Type} (names : List Str) (c : Codec α (List Json)) (hnodup : names.Nodup)
    (hlen : ∀ a, names.length = (c.encode a).length) : Codec α Json where
  encode a := Json.obj (names.zip (c.encode a))
  decode j := (Json.record names j).bind c.decode
  decode_encode a := by
    rw [Json.record_obj hnodup (hlen a), Option.bind_some, c.decode_encode]

/-- A record holds no surrogate pair if none of its fields' values does. -/
theorem Codec.noPair_record {α : Type} {names : List Str} {c : Codec α (List Json)}
    (hnodup : names.Nodup) (hlen : ∀ a, names.length = (c.encode a).length) {a : α}
    (hnames : ∀ name ∈ names, Text.Printable name) (hvalues : ∀ v ∈ c.encode a, v.NoPair) :
    ((Codec.record names c hnodup hlen).encode a).NoPair := by
  refine Json.noPairFields_iff.mpr fun f hf => ?_
  rcases List.of_mem_zip hf with ⟨hname, hvalue⟩
  exact ⟨Text.noPair_of_printable (hnames _ hname), hvalues _ hvalue⟩

/-- A list holds no surrogate pair if none of its items does. -/
theorem Codec.noPair_array {α : Type} {c : Codec α Json} {as : List α}
    (h : ∀ a ∈ as, (c.encode a).NoPair) : (c.array.encode as).NoPair := by
  refine Json.noPairItems_iff.mpr fun x hx => ?_
  rcases List.mem_map.mp hx with ⟨a, ha, rfl⟩
  exact h a ha

end Theory
