import ClaimTriage.Theory.Codec
import ClaimTriage.Theory.Loads

/-!
# Documents Over the Wire

A JSON document as the text one side writes and the other reads.

The models are written as `Json`, which has no fractions; a text is read as a
`Value`, which may have some. A document comes through if an interpreter
converts its integers, no key of an object comes twice, and its brackets are not
deeper than the reader goes. Records and lists of such documents are such
documents, so a model's codec says at once that its documents come through, in
whatever layout they are written.

## Main definitions

* `Json.toValue`, `Json.ofValue`: A document as a value, and back.
* `Json.written`, `Json.readText`: Its text, and what is read of one.
* `Json.Plain`: A document of so many brackets that comes through.
* `Json.texts`, `Json.Writable`: The texts in a document, and that UTF-8 has
  bytes for them.

## Theorems

* `Json.readText_written`: What comes through is what was written.
* `Json.encodable_written`: A document can be written exactly if its texts can.
* `Codec.plain_record`, `Codec.plain_array`: Records and lists come through.
* `Codec.writable_record`: When a record can be written.
-/

namespace Theory

open Text

namespace Json

/-! ### Documents and values -/

mutual

/-- A document as a value. -/
def toValue : Json → Value
  | null => .null
  | bool b => .bool b
  | int n => .int n
  | str s => .str s
  | arr items => .arr (toValues items)
  | obj fields => .obj (toValueFields fields)

def toValues : List Json → List Value
  | [] => []
  | x :: xs => toValue x :: toValues xs

def toValueFields : List (Str × Json) → List (Str × Value)
  | [] => []
  | (k, v) :: fs => (k, toValue v) :: toValueFields fs

end

mutual

/-- The document a value is, if there is no fraction in it. -/
def ofValue : Value → Option Json
  | .null => some null
  | .bool b => some (bool b)
  | .int n => some (int n)
  | .float _ => none
  | .str s => some (str s)
  | .arr items => (ofValues items).map arr
  | .obj fields => (ofValueFields fields).map obj

def ofValues : List Value → Option (List Json)
  | [] => some []
  | x :: xs => (ofValue x).bind fun j => (ofValues xs).map (j :: ·)

def ofValueFields : List (Str × Value) → Option (List (Str × Json))
  | [] => some []
  | (k, v) :: fs => (ofValue v).bind fun j => (ofValueFields fs).map ((k, j) :: ·)

end

mutual

/-- A document is the one its value is. -/
theorem ofValue_toValue : ∀ j : Json, ofValue (toValue j) = some j
  | null => rfl
  | bool _ => rfl
  | int _ => rfl
  | str _ => rfl
  | arr items => by rw [toValue, ofValue, ofValues_toValues items, Option.map_some]
  | obj fields => by rw [toValue, ofValue, ofValueFields_toValueFields fields, Option.map_some]

theorem ofValues_toValues : ∀ xs : List Json, ofValues (toValues xs) = some xs
  | [] => rfl
  | x :: xs => by
      rw [toValues, ofValues, ofValue_toValue x, ofValues_toValues xs, Option.bind_some,
        Option.map_some]

theorem ofValueFields_toValueFields :
    ∀ fs : List (Str × Json), ofValueFields (toValueFields fs) = some fs
  | [] => rfl
  | (k, v) :: fs => by
      rw [toValueFields, ofValueFields, ofValue_toValue v, ofValueFields_toValueFields fs,
        Option.bind_some, Option.map_some]

end

/-- A document's text, in a layout. -/
def written (l : Value.Layout) (j : Json) : Str :=
  Value.dumps l 0 j.toValue

/-- The document a text is, if it is one. -/
def readText (read : Str → Str) (frames : Nat) (s : Str) : Option Json :=
  match Value.loads read frames s with
  | .ok v => ofValue v
  | .error _ => none

/-! ### What comes through -/

mutual

/-- A document comes through that has so many brackets at most: its integers are
    converted, and no key comes twice. -/
def Plain : Nat → Json → Prop
  | _, null | _, bool _ | _, str _ => True
  | _, int n => Value.Convertible n
  | 0, arr _ | 0, obj _ => False
  | depth + 1, arr items => PlainItems depth items
  | depth + 1, obj fields => (fields.map Prod.fst).Nodup ∧ PlainFields depth fields

def PlainItems (depth : Nat) : List Json → Prop
  | [] => True
  | x :: xs => Plain depth x ∧ PlainItems depth xs

def PlainFields (depth : Nat) : List (Str × Json) → Prop
  | [] => True
  | (_, v) :: fs => Plain depth v ∧ PlainFields depth fs

end

theorem plainItems_iff {depth : Nat} {xs : List Json} :
    PlainItems depth xs ↔ ∀ x ∈ xs, Plain depth x := by
  induction xs with
  | nil => exact iff_of_true trivial (List.forall_mem_nil _)
  | cons x xs ih => rw [PlainItems, ih, List.forall_mem_cons]

theorem plainFields_iff {depth : Nat} {fs : List (Str × Json)} :
    PlainFields depth fs ↔ ∀ f ∈ fs, Plain depth f.2 := by
  induction fs with
  | nil => exact iff_of_true trivial (List.forall_mem_nil _)
  | cons f fs ih => rw [PlainFields, ih, List.forall_mem_cons]

theorem fst_toValueFields (fs : List (Str × Json)) :
    (toValueFields fs).map Prod.fst = fs.map Prod.fst := by
  induction fs with
  | nil => rfl
  | cons f fs ih => rw [toValueFields, List.map_cons, List.map_cons, ih]

mutual

/-- What comes through is not too deep for a reader that goes as deep. -/
theorem framed_of_plain {depth frames : Nat} (hle : depth ≤ frames) :
    ∀ j : Json, Plain depth j → Value.Framed frames j.toValue
  | null, _ => by cases frames <;> exact trivial
  | bool _, _ => by cases frames <;> exact trivial
  | int _, _ => by cases frames <;> exact trivial
  | str _, _ => by cases frames <;> exact trivial
  | arr items, h => by
      cases depth with
      | zero => exact h.elim
      | succ depth =>
          cases frames with
          | zero => exact absurd hle (Nat.not_succ_le_zero depth)
          | succ frames => exact framedItems_of_plain (Nat.le_of_succ_le_succ hle) items h
  | obj fields, h => by
      cases depth with
      | zero => exact h.elim
      | succ depth =>
          cases frames with
          | zero => exact absurd hle (Nat.not_succ_le_zero depth)
          | succ frames =>
              refine ⟨?_, framedFields_of_plain (Nat.le_of_succ_le_succ hle) fields h.2⟩
              rw [fst_toValueFields]
              exact h.1

theorem framedItems_of_plain {depth frames : Nat} (hle : depth ≤ frames) :
    ∀ xs : List Json, PlainItems depth xs → Value.FramedItems frames (toValues xs)
  | [], _ => trivial
  | x :: xs, h => ⟨framed_of_plain hle x h.1, framedItems_of_plain hle xs h.2⟩

theorem framedFields_of_plain {depth frames : Nat} (hle : depth ≤ frames) :
    ∀ fs : List (Str × Json), PlainFields depth fs → Value.FramedFields frames (toValueFields fs)
  | [], _ => trivial
  | (_, v) :: fs, h => ⟨framed_of_plain hle v h.1, framedFields_of_plain hle fs h.2⟩

end

mutual

/-- And all that is in it is read as it is written. -/
theorem sound_of_plain (read : Str → Str) {depth : Nat} :
    ∀ j : Json, Plain depth j → ∀ a ∈ Value.atoms j.toValue, Value.Sound read a
  | null, _ => List.forall_mem_singleton.mpr trivial
  | bool _, _ => List.forall_mem_singleton.mpr trivial
  | int _, h => by
      refine List.forall_mem_singleton.mpr ?_
      cases depth <;> exact h
  | str _, _ => List.forall_mem_singleton.mpr trivial
  | arr items, h => by
      cases depth with
      | zero => exact h.elim
      | succ depth => exact soundItems_of_plain read items h
  | obj fields, h => by
      cases depth with
      | zero => exact h.elim
      | succ depth => exact soundFields_of_plain read fields h.2

theorem soundItems_of_plain (read : Str → Str) {depth : Nat} :
    ∀ xs : List Json, PlainItems depth xs →
      ∀ a ∈ Value.atomsItems (toValues xs), Value.Sound read a
  | [], _ => List.forall_mem_nil _
  | x :: xs, h => by
      rw [toValues, Value.atomsItems, List.forall_mem_append]
      exact ⟨sound_of_plain read x h.1, soundItems_of_plain read xs h.2⟩

theorem soundFields_of_plain (read : Str → Str) {depth : Nat} :
    ∀ fs : List (Str × Json), PlainFields depth fs →
      ∀ a ∈ Value.atomsFields (toValueFields fs), Value.Sound read a
  | [], _ => List.forall_mem_nil _
  | (_, v) :: fs, h => by
      rw [toValueFields, Value.atomsFields, List.forall_mem_cons, List.forall_mem_append]
      exact ⟨trivial, sound_of_plain read v h.1, soundFields_of_plain read fs h.2⟩

end

/-- What comes through is what was written. -/
theorem readText_written (read : Str → Str) (l : Value.Layout) {depth frames : Nat}
    (hle : depth ≤ frames) {j : Json} (h : Plain depth j) :
    readText read frames (written l j) = some j := by
  rw [readText, written, Value.loads_dumps (sound_of_plain read j h) (framed_of_plain hle j h)]
  exact ofValue_toValue j

/-! ### What can be written -/

mutual

/-- The texts in a document, its keys included. -/
def texts : Json → List Str
  | null | bool _ | int _ => []
  | str s => [s]
  | arr items => textsItems items
  | obj fields => textsFields fields

def textsItems : List Json → List Str
  | [] => []
  | x :: xs => texts x ++ textsItems xs

def textsFields : List (Str × Json) → List Str
  | [] => []
  | (k, v) :: fs => k :: (texts v ++ textsFields fs)

end

/-- UTF-8 has bytes for every text in a document. -/
def Writable (j : Json) : Prop :=
  ∀ s ∈ j.texts, Value.Encodable s

instance (j : Json) : Decidable j.Writable :=
  List.decidableBAll _ _

theorem mem_textsFields {s : Str} {fs : List (Str × Json)} :
    s ∈ textsFields fs ↔ ∃ f ∈ fs, s = f.1 ∨ s ∈ texts f.2 := by
  induction fs with
  | nil => exact iff_of_false List.not_mem_nil fun ⟨_, hf, _⟩ => List.not_mem_nil hf
  | cons f fs ih =>
      rw [textsFields, List.mem_cons, List.mem_append, ih, List.exists_mem_cons_iff, or_assoc]

theorem writable_str {s : Str} : (str s).Writable ↔ Value.Encodable s :=
  List.forall_mem_singleton

theorem writable_obj {fields : List (Str × Json)} :
    (obj fields).Writable ↔ ∀ f ∈ fields, Value.Encodable f.1 ∧ f.2.Writable := by
  constructor
  · intro h f hf
    exact ⟨h _ (mem_textsFields.mpr ⟨f, hf, Or.inl rfl⟩),
      fun s hs => h s (mem_textsFields.mpr ⟨f, hf, Or.inr hs⟩)⟩
  · intro h s hs
    rcases mem_textsFields.mp hs with ⟨f, hf, rfl | hs⟩
    · exact (h f hf).1
    · exact (h f hf).2 s hs

mutual

/-- Every text in a document is an atom of its value. -/
theorem mem_atoms {s : Str} :
    ∀ j : Json, s ∈ texts j → Value.str s ∈ Value.atoms j.toValue
  | null, h | bool _, h | int _, h => absurd h List.not_mem_nil
  | str t, h => by
      rw [List.mem_singleton.mp h]
      exact List.mem_singleton_self _
  | arr items, h => mem_atomsItems items h
  | obj fields, h => mem_atomsFields fields h

theorem mem_atomsItems {s : Str} :
    ∀ xs : List Json, s ∈ textsItems xs → Value.str s ∈ Value.atomsItems (toValues xs)
  | [], h => absurd h List.not_mem_nil
  | x :: xs, h => by
      rw [textsItems, List.mem_append] at h
      rw [toValues, Value.atomsItems, List.mem_append]
      exact h.imp (mem_atoms x) (mem_atomsItems xs)

theorem mem_atomsFields {s : Str} :
    ∀ fs : List (Str × Json), s ∈ textsFields fs →
      Value.str s ∈ Value.atomsFields (toValueFields fs)
  | [], h => absurd h List.not_mem_nil
  | (k, v) :: fs, h => by
      rw [textsFields, List.mem_cons, List.mem_append] at h
      rw [toValueFields, Value.atomsFields, List.mem_cons, List.mem_append]
      exact h.imp (congrArg Value.str) (Or.imp (mem_atoms v) (mem_atomsFields fs))

end

/-- What UTF-8 has bytes for. -/
def Utf8 (c : CodePoint) : Prop :=
  ¬ IsHigh c ∧ ¬ IsLow c

mutual

/-- And every atom that is a text is one in the document, and none has a
    fraction. -/
theorem atomAll_of_texts :
    ∀ j : Json, (∀ s ∈ texts j, Value.Encodable s) →
      ∀ a ∈ Value.atoms j.toValue, Value.AtomAll Utf8 a
  | null, _ => List.forall_mem_singleton.mpr trivial
  | bool _, _ => List.forall_mem_singleton.mpr trivial
  | int _, _ => List.forall_mem_singleton.mpr trivial
  | str s, h => List.forall_mem_singleton.mpr fun c hc _ => h s (List.mem_singleton_self s) c hc
  | arr items, h => atomAllItems_of_texts items h
  | obj fields, h => atomAllFields_of_texts fields h

theorem atomAllItems_of_texts :
    ∀ xs : List Json, (∀ s ∈ textsItems xs, Value.Encodable s) →
      ∀ a ∈ Value.atomsItems (toValues xs), Value.AtomAll Utf8 a
  | [], _ => List.forall_mem_nil _
  | x :: xs, h => by
      rw [textsItems, List.forall_mem_append] at h
      rw [toValues, Value.atomsItems, List.forall_mem_append]
      exact ⟨atomAll_of_texts x h.1, atomAllItems_of_texts xs h.2⟩

theorem atomAllFields_of_texts :
    ∀ fs : List (Str × Json), (∀ s ∈ textsFields fs, Value.Encodable s) →
      ∀ a ∈ Value.atomsFields (toValueFields fs), Value.AtomAll Utf8 a
  | [], _ => List.forall_mem_nil _
  | (k, v) :: fs, h => by
      rw [textsFields, List.forall_mem_cons, List.forall_mem_append] at h
      rw [toValueFields, Value.atomsFields, List.forall_mem_cons, List.forall_mem_append]
      exact ⟨fun c hc _ => h.1 c hc, atomAll_of_texts v h.2.1, atomAllFields_of_texts fs h.2.2⟩

end

/-- A document can be written, in whatever layout, exactly if its texts can. -/
theorem encodable_written {l : Value.Layout} {j : Json} :
    Value.Encodable (written l j) ↔ j.Writable := by
  constructor
  · intro h s hs c hc
    -- A surrogate stands in the document's text as it does in its own.
    by_contra hnot
    have hge : 0x7F ≤ c.val := by
      unfold IsHigh IsLow at hnot
      omega
    exact hnot (h c (Value.mem_dumps l hc hge 0 j.toValue (mem_atoms j hs)))
  · intro h
    have hplain : ∀ c : CodePoint, 0x20 ≤ c.val → c.val < 0x7F → Utf8 c := by
      intro c _ hc
      unfold Utf8 IsHigh IsLow
      omega
    have hblank : ∀ c : CodePoint, Value.IsBlank c → Utf8 c := by
      intro c hc
      unfold Utf8 IsHigh IsLow
      simp only [Value.IsBlank, List.mem_cons, List.not_mem_nil, or_false] at hc
      omega
    have hl : l.All Utf8 :=
      ⟨fun d c hc => hblank c (l.opening_blank d c hc),
        fun d c hc => hblank c (l.item_blank d c hc),
        fun d c hc => hblank c (l.closing_blank d c hc), fun c hc => hblank c (l.key_blank c hc)⟩
    exact Value.forall_mem_dumps hplain hl 0 j.toValue (atomAll_of_texts j h)

end Json

namespace Codec

/-! ### Codecs of documents that come through -/

variable {α : Type}

/-- A record comes through if its fields' values do. -/
theorem plain_record {names : List Str} {c : Codec α (List Json)} (hnodup : names.Nodup)
    (hlen : ∀ a, names.length = (c.encode a).length) {a : α} {depth : Nat}
    (hvalues : ∀ v ∈ c.encode a, v.Plain depth) :
    ((Codec.record names c hnodup hlen).encode a).Plain (depth + 1) := by
  refine ⟨?_, Json.plainFields_iff.mpr fun f hf => hvalues _ (List.of_mem_zip hf).2⟩
  rw [List.map_fst_zip (hlen a).le]
  exact hnodup

/-- A list comes through if its items do. -/
theorem plain_array {c : Codec α Json} {as : List α} {depth : Nat}
    (h : ∀ a ∈ as, (c.encode a).Plain depth) : (c.array.encode as).Plain (depth + 1) := by
  refine Json.plainItems_iff.mpr fun x hx => ?_
  rcases List.mem_map.mp hx with ⟨a, ha, rfl⟩
  exact h a ha

/-- A record can be written exactly if its fields' values can, its names being ones
    that can. -/
theorem writable_record {names : List Str} {c : Codec α (List Json)} (hnodup : names.Nodup)
    (hlen : ∀ a, names.length = (c.encode a).length) {a : α}
    (hnames : ∀ name ∈ names, Value.Encodable name) :
    ((Codec.record names c hnodup hlen).encode a).Writable ↔ ∀ v ∈ c.encode a, v.Writable := by
  refine Json.writable_obj.trans ⟨fun h v hv => ?_, fun h f hf => ?_⟩
  · have hmem : v ∈ (names.zip (c.encode a)).map Prod.snd := by
      rw [List.map_snd_zip (hlen a).ge]
      exact hv
    rcases List.mem_map.mp hmem with ⟨f, hf, rfl⟩
    exact (h f hf).2
  · rcases List.of_mem_zip hf with ⟨hname, hvalue⟩
    exact ⟨hnames _ hname, h _ hvalue⟩

end Codec

end Theory
