import ClaimTriage.Theory.Json
import ClaimTriage.Theory.Dict
import ClaimTriage.Theory.Lines

/-!
# JSON Texts With Their Characters

JSON values and the texts that leave every character but a string's marks and
the control characters as it is. Where a writer puts blanks between the parts of
a value is its own affair (`Layout`), and a reader passes over them.

A number with a fraction or an exponent is the text it is written as: which
numbers there are is the machine's business, and a text is all that stands in a
file.

## Main definitions

* `Value`: JSON values.
* `Layout`: The blanks between the parts of a value.
* `escape`: One character inside a string's text.
* `dumps`: A value's text.
* `atoms`: What a value is made of, the keys too.
* `Framed`: No key comes twice, and no bracket stands too deep.
* `IsNumber`: What a machine writes of one of its numbers.

## Theorems

* `forall_mem_dumps`: What the characters of a text have in common.
* `mem_dumps`: What stands in a text as it does in a string.
* `trimmed_dumps`: An object's text has no blank at its ends.
-/

namespace Theory

/-- A JSON value. What is no integer is the text it is written as. -/
inductive Value where
  | null
  | bool (b : Bool)
  | int (n : Int)
  | float (written : Str)
  | str (s : Str)
  | arr (items : List Value)
  | obj (fields : List (Str × Value))

namespace Value

open Text Numeral Json

/-- What may stand between the parts of a value. -/
def IsBlank (c : CodePoint) : Prop :=
  c.val ∈ [0x20, 0x09, 0x0A, 0x0D]

instance (c : CodePoint) : Decidable (IsBlank c) :=
  inferInstanceAs (Decidable (_ ∈ _))

/-- Where a writer puts blanks, at each depth: after an opening bracket, after a
    comma and before a closing bracket, and after a colon. -/
structure Layout where
  opening : Nat → Str
  item : Nat → Str
  closing : Nat → Str
  key : Str
  opening_blank : ∀ depth, ∀ c ∈ opening depth, IsBlank c
  item_blank : ∀ depth, ∀ c ∈ item depth, IsBlank c
  closing_blank : ∀ depth, ∀ c ∈ closing depth, IsBlank c
  key_blank : ∀ c ∈ key, IsBlank c

/-- A space after every comma and colon. -/
def spaced : Layout where
  opening _ := []
  item _ := text " "
  closing _ := []
  key := text " "
  opening_blank _ := nofun
  item_blank _ := List.forall_mem_singleton.mpr (by decide)
  closing_blank _ := nofun
  key_blank := List.forall_mem_singleton.mpr (by decide)

/-- A new line, and spaces up to a place for each depth. -/
def newLine (width depth : Nat) : Str :=
  0x0A :: List.replicate (width * depth) 0x20

theorem newLine_blank (width depth : Nat) : ∀ c ∈ newLine width depth, IsBlank c := by
  refine List.forall_mem_cons.mpr ⟨by decide, fun c hc => ?_⟩
  rw [(List.mem_replicate.mp hc).2]
  decide

/-- Every item on a line of its own. -/
def indented (width : Nat) : Layout where
  opening := newLine width
  item := newLine width
  closing := newLine width
  key := text " "
  opening_blank := newLine_blank width
  item_blank := newLine_blank width
  closing_blank := newLine_blank width
  key_blank := List.forall_mem_singleton.mpr (by decide)

/-- No blanks at all. -/
def compact : Layout where
  opening _ := []
  item _ := []
  closing _ := []
  key := []
  opening_blank _ := nofun
  item_blank _ := nofun
  closing_blank _ := nofun
  key_blank := nofun

/-- All the blanks a writer puts are of a kind. -/
structure Layout.All (l : Layout) (P : CodePoint → Prop) : Prop where
  opening : ∀ depth, ∀ c ∈ l.opening depth, P c
  item : ∀ depth, ∀ c ∈ l.item depth, P c
  closing : ∀ depth, ∀ c ∈ l.closing depth, P c
  key : ∀ c ∈ l.key, P c

theorem spaced_all {P : CodePoint → Prop} (h : P 0x20) : spaced.All P where
  opening _ := nofun
  item _ := List.forall_mem_singleton.mpr h
  closing _ := nofun
  key := List.forall_mem_singleton.mpr h

theorem compact_all {P : CodePoint → Prop} : compact.All P where
  opening _ := nofun
  item _ := nofun
  closing _ := nofun
  key := nofun

/-- One character inside a string's text. -/
def escape (c : CodePoint) : Str :=
  match shorts.lookup c with
  | some letter => [backslash, letter]
  | none => if c.val < 0x20 then backslash :: 0x75 :: fixed 16 4 c.val else [c]

/-- A string's text. -/
def dumpsStr (s : Str) : Str :=
  quote :: s.flatMap escape ++ [quote]

/-- The numbers that are none, and what is written for them. -/
def constants : List (Str × Str) :=
  [(text "nan", text "NaN"), (text "inf", text "Infinity"), (text "-inf", text "-Infinity")]

/-- A number's text. -/
def dumpsFloat (written : Str) : Str :=
  (constants.lookup written).getD written

mutual

/-- A value's text. -/
def dumps (l : Layout) (depth : Nat) : Value → Str
  | null => text "null"
  | bool true => text "true"
  | bool false => text "false"
  | int n => signed n
  | float written => dumpsFloat written
  | str s => dumpsStr s
  | arr [] => text "[]"
  | arr (x :: xs) =>
    0x5B :: (l.opening (depth + 1) ++ (dumps l (depth + 1) x ++ dumpsItems l depth xs))
  | obj [] => text "\x7b\x7d"
  | obj ((k, v) :: fs) =>
    0x7B :: (l.opening (depth + 1) ++ (dumpsStr k ++
      0x3A :: (l.key ++ (dumps l (depth + 1) v ++ dumpsFields l depth fs))))

/-- The items after the first, and the closing bracket. -/
def dumpsItems (l : Layout) (depth : Nat) : List Value → Str
  | [] => l.closing depth ++ [0x5D]
  | x :: xs => 0x2C :: (l.item (depth + 1) ++ (dumps l (depth + 1) x ++ dumpsItems l depth xs))

/-- The fields after the first, and the closing brace. -/
def dumpsFields (l : Layout) (depth : Nat) : List (Str × Value) → Str
  | [] => l.closing depth ++ [0x7D]
  | (k, v) :: fs =>
    0x2C :: (l.item (depth + 1) ++ (dumpsStr k ++
      0x3A :: (l.key ++ (dumps l (depth + 1) v ++ dumpsFields l depth fs))))

end

mutual

/-- What a value is made of: everything in it that is no array and no object, and
    the keys as strings. -/
def atoms : Value → List Value
  | arr xs => atomsItems xs
  | obj fs => atomsFields fs
  | v => [v]

def atomsItems : List Value → List Value
  | [] => []
  | x :: xs => atoms x ++ atomsItems xs

def atomsFields : List (Str × Value) → List Value
  | [] => []
  | (k, v) :: fs => str k :: (atoms v ++ atomsFields fs)

end

mutual

/-- No object has a key twice, and nothing stands deeper than so many brackets. -/
def Framed : Nat → Value → Prop
  | 0, arr _ | 0, obj _ => False
  | frames + 1, arr xs => FramedItems frames xs
  | frames + 1, obj fs => (fs.map Prod.fst).Nodup ∧ FramedFields frames fs
  | _, _ => True

def FramedItems (frames : Nat) : List Value → Prop
  | [] => True
  | x :: xs => Framed frames x ∧ FramedItems frames xs

def FramedFields (frames : Nat) : List (Str × Value) → Prop
  | [] => True
  | (_, v) :: fs => Framed frames v ∧ FramedFields frames fs

end

/-- One digit at least, and nothing but digits. -/
def Digits (s : Str) : Prop :=
  s ≠ [] ∧ ∀ c ∈ s, IsDigit c

/-- What stands before a point or an exponent: zero, or digits that do not begin with
    one. -/
def IsWhole (s : Str) : Prop :=
  s = text "0" ∨ Digits s ∧ s.head? ≠ some 0x30

/-- A point and digits, or nothing. -/
def IsPlaces (s : Str) : Prop :=
  s = [] ∨ ∃ digits, Digits digits ∧ s = 0x2E :: digits

/-- An exponent and its sign, or nothing. -/
def IsPower (s : Str) : Prop :=
  s = [] ∨ ∃ letter mark digits, (letter = 0x65 ∨ letter = 0x45) ∧
    (mark = [] ∨ mark = [0x2D] ∨ mark = [0x2B]) ∧ Digits digits ∧ s = letter :: (mark ++ digits)

/-- A number's text that is no integer's: there is a fraction or an exponent. -/
def IsFraction (s : Str) : Prop :=
  ∃ sign whole places power, s = sign ++ (whole ++ (places ++ power)) ∧
    (sign = [] ∨ sign = [0x2D]) ∧ IsWhole whole ∧ IsPlaces places ∧ IsPower power ∧
    (places ≠ [] ∨ power ≠ [])

/-- What a machine writes of one of its numbers. -/
def IsNumber (written : Str) : Prop :=
  written ∈ constants.map Prod.fst ∨ IsFraction written

/-- An integer an interpreter converts. -/
def Convertible (n : Int) : Prop :=
  (decimal n.natAbs).length ≤ maxStrDigits

instance (n : Int) : Decidable (Convertible n) :=
  inferInstanceAs (Decidable (_ ≤ _))

/-- UTF-8 has bytes for every character. -/
def Encodable (s : Str) : Prop :=
  ∀ c ∈ s, ¬ IsHigh c ∧ ¬ IsLow c

instance (s : Str) : Decidable (Encodable s) :=
  List.decidableBAll _ s

/-! ### The characters of a text -/

theorem printable_of_shorts {p : CodePoint × CodePoint} (hp : p ∈ shorts) :
    p.1.val < 0x7F ∧ 0x20 ≤ p.2.val ∧ p.2.val < 0x7F := by
  have hall : shorts.all (fun p => decide (p.1.val < 0x7F ∧ 0x20 ≤ p.2.val ∧ p.2.val < 0x7F)) := by
    decide
  exact of_decide_eq_true (List.all_eq_true.mp hall p hp)

theorem mem_escape {c d : CodePoint} (h : d ∈ escape c) :
    (0x20 ≤ d.val ∧ d.val < 0x7F) ∨ d = c ∧ 0x20 ≤ c.val := by
  unfold escape at h
  split at h
  · -- An escape of two characters.
    rename_i letter hletter
    rcases List.mem_cons.mp h with rfl | h
    · exact Or.inl (by decide)
    · rw [List.mem_singleton.mp h]
      exact Or.inl (printable_of_shorts (shorts_lookup_mem hletter)).2
  · split at h
    · -- One of six: a backslash, the letter and four digits.
      rcases List.mem_cons.mp h with rfl | h
      · exact Or.inl (by decide)
      · rcases List.mem_cons.mp h with rfl | h
        · exact Or.inl (by decide)
        · exact Or.inl (printable_fixed (by decide) (by decide) 4 c.val d h)
    · -- What stands for itself.
      rename_i hc
      rw [List.mem_singleton.mp h]
      exact Or.inr ⟨rfl, by omega⟩

theorem escape_of_ge {c : CodePoint} (h : 0x7F ≤ c.val) : escape c = [c] := by
  have hnone : shorts.lookup c = none := by
    rw [List.lookup_eq_none_iff]
    intro p hp
    have hlt := (printable_of_shorts hp).1
    rw [bne_iff_ne]
    rintro rfl
    omega
  unfold escape
  rw [hnone]
  exact if_neg (by omega)

theorem isDigit_plain {c : CodePoint} (h : IsDigit c) : 0x20 ≤ c.val ∧ c.val < 0x7F := by
  unfold IsDigit at h
  omega

theorem isFraction_printable {s : Str} (h : IsFraction s) : Printable s := by
  have hdigits : ∀ {s : Str}, Digits s → Printable s := fun h c hc => isDigit_plain (h.2 c hc)
  rcases h with ⟨sign, whole, places, power, rfl, hsign, hwhole, hplaces, hpower, _⟩
  simp only [printable_append]
  refine ⟨?_, ?_, ?_, ?_⟩
  · -- A number is a sign, digits, perhaps a point and digits, and perhaps a power of ten.
    rcases hsign with rfl | rfl <;> decide
  · rcases hwhole with rfl | hwhole
    · decide
    · exact hdigits hwhole.1
  · rcases hplaces with rfl | ⟨digits, hplaces, rfl⟩
    · decide
    · exact (printable_cons _ _).mpr ⟨by decide, hdigits hplaces⟩
  · rcases hpower with rfl | ⟨letter, mark, digits, hletter, hmark, hpower, rfl⟩
    · decide
    · rw [printable_cons, printable_append]
      refine ⟨?_, ?_, hdigits hpower⟩
      · rcases hletter with rfl | rfl <;> decide
      · rcases hmark with rfl | rfl | rfl <;> decide

/-- A number's text is what is written of it, or one of the three there are for what is
    none. -/
theorem dumpsFloat_cases {written : Str} (h : IsNumber written) :
    (written, dumpsFloat written) ∈ constants ∨
      IsFraction written ∧ dumpsFloat written = written := by
  unfold dumpsFloat
  cases hlookup : constants.lookup written with
  | some token =>
      exact Or.inl ((Dict.lookup_eq_some_iff (by decide)).mp hlookup)
  | none =>
      exact Or.inr ⟨h.resolve_left (Dict.lookup_eq_none_iff.mp hlookup), rfl⟩

theorem dumpsFloat_printable {written : Str} (h : IsNumber written) :
    Printable (dumpsFloat written) := by
  rcases dumpsFloat_cases h with hconstant | ⟨hfraction, heq⟩
  · have hall : ∀ p ∈ constants, Printable p.2 := by decide
    exact hall _ hconstant
  · rw [heq]
    exact isFraction_printable hfraction

/-- What an atom must be for the characters of its text to be of a kind all the
    printable ones are of. -/
def AtomAll (P : CodePoint → Prop) : Value → Prop
  | str s => ∀ c ∈ s, 0x20 ≤ c.val → P c
  | float written => IsNumber written
  | _ => True

section Characters

variable {P : CodePoint → Prop} (hplain : ∀ c : CodePoint, 0x20 ≤ c.val → c.val < 0x7F → P c)
  {l : Layout} (hl : l.All P)

include hplain

theorem forall_mem_of_printable {s : Str} (h : Printable s) : ∀ c ∈ s, P c :=
  fun c hc => hplain c (h c hc).1 (h c hc).2

theorem forall_mem_dumpsStr {s : Str} (h : ∀ c ∈ s, 0x20 ≤ c.val → P c) :
    ∀ c ∈ dumpsStr s, P c := by
  have hquote : P quote := hplain quote (by decide) (by decide)
  unfold dumpsStr
  simp only [List.cons_append, List.forall_mem_cons, List.forall_mem_append]
  refine ⟨hquote, fun c hc => ?_, hquote, nofun⟩
  rcases List.mem_flatMap.mp hc with ⟨d, hd, hc⟩
  rcases mem_escape hc with hc | ⟨rfl, hc⟩
  · exact hplain c hc.1 hc.2
  · exact h c hd hc

include hl

mutual

/-- The characters of a text are of a kind if the printable ones, its blanks and those of
    its strings are. -/
theorem forall_mem_dumps (depth : Nat) :
    ∀ v : Value, (∀ a ∈ atoms v, AtomAll P a) → ∀ c ∈ dumps l depth v, P c
  | null, _ => forall_mem_of_printable hplain (by decide : Printable (text "null"))
  | bool true, _ => forall_mem_of_printable hplain (by decide : Printable (text "true"))
  | bool false, _ => forall_mem_of_printable hplain (by decide : Printable (text "false"))
  | int n, _ => forall_mem_of_printable hplain (printable_signed n)
  -- The constants are written in letters of their own.
  | float written, h => by
      have hnumber : IsNumber written := h (float written) (List.mem_singleton_self _)
      exact forall_mem_of_printable hplain (dumpsFloat_printable hnumber)
  | str s, h => forall_mem_dumpsStr hplain (h (str s) (List.mem_singleton_self _))
  | arr [], _ => forall_mem_of_printable hplain (by decide : Printable (text "[]"))
  | arr (x :: xs), h => by
      rw [atoms, atomsItems, List.forall_mem_append] at h
      rw [dumps]
      simp only [List.forall_mem_cons, List.forall_mem_append]
      -- The bracket, the blanks of the layout, the first item, and the rest.
      exact ⟨hplain _ (by decide) (by decide), hl.opening _, forall_mem_dumps _ x h.1,
        forall_mem_dumpsItems depth xs h.2⟩
  | obj [], _ => forall_mem_of_printable hplain (by decide : Printable (text "\x7b\x7d"))
  | obj ((k, v) :: fs), h => by
      rw [atoms, atomsFields, List.forall_mem_cons, List.forall_mem_append] at h
      rw [dumps]
      simp only [List.forall_mem_cons, List.forall_mem_append]
      -- The brace, the blanks, the key with its colon, the value, and the rest.
      exact ⟨hplain _ (by decide) (by decide), hl.opening _, forall_mem_dumpsStr hplain h.1,
        hplain _ (by decide) (by decide), hl.key, forall_mem_dumps _ v h.2.1,
        forall_mem_dumpsFields depth fs h.2.2⟩

theorem forall_mem_dumpsItems (depth : Nat) :
    ∀ xs : List Value, (∀ a ∈ atomsItems xs, AtomAll P a) → ∀ c ∈ dumpsItems l depth xs, P c
  | [], _ => by
      rw [dumpsItems, List.forall_mem_append, List.forall_mem_singleton]
      exact ⟨hl.closing _, hplain _ (by decide) (by decide)⟩
  | x :: xs, h => by
      rw [atomsItems, List.forall_mem_append] at h
      rw [dumpsItems]
      simp only [List.forall_mem_cons, List.forall_mem_append]
      exact ⟨hplain _ (by decide) (by decide), hl.item _, forall_mem_dumps _ x h.1,
        forall_mem_dumpsItems depth xs h.2⟩

theorem forall_mem_dumpsFields (depth : Nat) :
    ∀ fs : List (Str × Value), (∀ a ∈ atomsFields fs, AtomAll P a) →
      ∀ c ∈ dumpsFields l depth fs, P c
  | [], _ => by
      rw [dumpsFields, List.forall_mem_append, List.forall_mem_singleton]
      exact ⟨hl.closing _, hplain _ (by decide) (by decide)⟩
  | (k, v) :: fs, h => by
      rw [atomsFields, List.forall_mem_cons, List.forall_mem_append] at h
      rw [dumpsFields]
      simp only [List.forall_mem_cons, List.forall_mem_append]
      exact ⟨hplain _ (by decide) (by decide), hl.item _, forall_mem_dumpsStr hplain h.1,
        hplain _ (by decide) (by decide), hl.key, forall_mem_dumps _ v h.2.1,
        forall_mem_dumpsFields depth fs h.2.2⟩

end

end Characters

/-! ### What stands in a text as it is -/

theorem mem_dumpsStr {s : Str} {c : CodePoint} (h : c ∈ s) (hc : 0x7F ≤ c.val) :
    c ∈ dumpsStr s := by
  have hescape : c ∈ s.flatMap escape := by
    refine List.mem_flatMap.mpr ⟨c, h, ?_⟩
    rw [escape_of_ge hc]
    exact List.mem_singleton_self c
  unfold dumpsStr
  exact List.mem_append_left _ (List.mem_cons_of_mem _ hescape)

mutual

/-- What is no control character and not ASCII stands in a text as it does in the
    string. -/
theorem mem_dumps (l : Layout) {s : Str} {c : CodePoint} (hs : c ∈ s) (hc : 0x7F ≤ c.val)
    (depth : Nat) :
    ∀ v : Value, str s ∈ atoms v → c ∈ dumps l depth v
  | null, h | bool _, h | int _, h | float _, h => by
      -- These hold no string.
      cases List.mem_singleton.mp h
  | str t, h => by
      cases List.mem_singleton.mp h
      exact mem_dumpsStr hs hc
  | arr [], h => absurd h List.not_mem_nil
  | arr (x :: xs), h => by
      rw [atoms, atomsItems, List.mem_append] at h
      rw [dumps]
      rcases h with h | h
      · have hmem := mem_dumps l hs hc (depth + 1) x h
        simp only [List.mem_cons, List.mem_append, hmem, true_or, or_true]
      · have hmem := mem_dumpsItems l hs hc depth xs h
        simp only [List.mem_cons, List.mem_append, hmem, or_true]
  | obj [], h => absurd h List.not_mem_nil
  | obj ((k, v) :: fs), h => by
      rw [atoms, atomsFields, List.mem_cons, List.mem_append] at h
      rw [dumps]
      rcases h with h | h | h
      · cases h
        have hmem := mem_dumpsStr hs hc
        simp only [List.mem_cons, List.mem_append, hmem, true_or, or_true]
      · have hmem := mem_dumps l hs hc (depth + 1) v h
        simp only [List.mem_cons, List.mem_append, hmem, true_or, or_true]
      · have hmem := mem_dumpsFields l hs hc depth fs h
        simp only [List.mem_cons, List.mem_append, hmem, or_true]

theorem mem_dumpsItems (l : Layout) {s : Str} {c : CodePoint} (hs : c ∈ s) (hc : 0x7F ≤ c.val)
    (depth : Nat) :
    ∀ xs : List Value, str s ∈ atomsItems xs → c ∈ dumpsItems l depth xs
  | [], h => absurd h List.not_mem_nil
  | x :: xs, h => by
      rw [atomsItems, List.mem_append] at h
      rw [dumpsItems]
      rcases h with h | h
      · have hmem := mem_dumps l hs hc (depth + 1) x h
        simp only [List.mem_cons, List.mem_append, hmem, true_or, or_true]
      · have hmem := mem_dumpsItems l hs hc depth xs h
        simp only [List.mem_cons, List.mem_append, hmem, or_true]

theorem mem_dumpsFields (l : Layout) {s : Str} {c : CodePoint} (hs : c ∈ s) (hc : 0x7F ≤ c.val)
    (depth : Nat) :
    ∀ fs : List (Str × Value), str s ∈ atomsFields fs → c ∈ dumpsFields l depth fs
  | [], h => absurd h List.not_mem_nil
  | (k, v) :: fs, h => by
      rw [atomsFields, List.mem_cons, List.mem_append] at h
      rw [dumpsFields]
      rcases h with h | h | h
      · cases h
        have hmem := mem_dumpsStr hs hc
        simp only [List.mem_cons, List.mem_append, hmem, true_or, or_true]
      · have hmem := mem_dumps l hs hc (depth + 1) v h
        simp only [List.mem_cons, List.mem_append, hmem, true_or, or_true]
      · have hmem := mem_dumpsFields l hs hc depth fs h
        simp only [List.mem_cons, List.mem_append, hmem, or_true]

end

theorem dumpsFields_getLast (l : Layout) (depth : Nat) (fs : List (Str × Value)) :
    ∃ inner, dumpsFields l depth fs = inner ++ [0x7D] := by
  induction fs with
  | nil => exact ⟨l.closing depth, by rw [dumpsFields]⟩
  | cons f fs ih =>
      rcases f with ⟨k, v⟩
      rcases ih with ⟨inner, hinner⟩
      rw [dumpsFields, hinner]
      exact ⟨0x2C :: (l.item (depth + 1) ++ (dumpsStr k ++
        0x3A :: (l.key ++ (dumps l (depth + 1) v ++ inner)))), by simp⟩

/-- An object's text begins and ends with a brace. -/
theorem trimmed_dumps (l : Layout) (depth : Nat) (fs : List (Str × Value)) :
    Trimmed (dumps l depth (obj fs)) := by
  cases fs with
  | nil => exact ⟨0x7B, [], 0x7D, rfl, by decide, by decide⟩
  | cons f fs =>
      rcases f with ⟨k, v⟩
      rcases dumpsFields_getLast l depth fs with ⟨inner, hinner⟩
      rw [dumps, hinner]
      exact ⟨0x7B, l.opening (depth + 1) ++ (dumpsStr k ++
        0x3A :: (l.key ++ (dumps l (depth + 1) v ++ inner))), 0x7D, by simp, by decide, by decide⟩

end Value

end Theory
