import ClaimTriage.Theory.Numeral

/-!
# JSON Texts

JSON values and the one text a serialiser writes for each: ASCII only, every
other code unit escaped, with or without a space after the separators.

What matters about the text is that it determines the value. A digest taken
over the text is then a digest of the value, and nothing about a value stands
outside what was hashed. `dumps_inj` says so for values whose strings hold no
surrogate pair (`Text.NoPair`); a string that does hold one is written exactly
as the string that holds the character the pair encodes.

The proof is the usual one for a grammar read from left to right: each value's
text is recognised off the front of whatever follows it, so two texts that
agree agree value by value. `dumps_append_inj` is that statement, with the
remainder explicit; it needs the remainder not to begin with a digit, because
a number's text ends where the digits do.

## Main definitions

* `Json`: JSON values. An object is its fields in order.
* `escape`: One code unit inside a string's text.
* `dumpsStr`: A string's text.
* `dumps`: A value's text.
* `sortKeys`: The value with every object's fields in order of their keys.
* `Json.NoPair`: No string of the value holds a surrogate pair.

## Theorems

* `escape_append_inj`: One escaped unit is recognised off the front.
* `dumpsStr_append_inj`: One string is recognised off the front.
* `signed_append_inj`: One number is recognised off the front.
* `dumps_append_inj`: One value is recognised off the front.
* `dumps_inj`: A text determines the value it is of.
-/

namespace Theory

/-- A JSON value. An object is its fields in the order they are written. -/
inductive Json where
  | null
  | bool (b : Bool)
  | int (n : Int)
  | str (s : Str)
  | arr (items : List Json)
  | obj (fields : List (Str × Json))

namespace Json

open Text Numeral

/-- The quotation mark. -/
def quote : CodePoint := 0x22

/-- The backslash every escape begins with. -/
def backslash : CodePoint := 0x5C

/-- The code units with an escape of two characters, and the second of the
    two. -/
def shorts : List (CodePoint × CodePoint) :=
  [(0x22, 0x22), (0x5C, 0x5C), (0x08, 0x62), (0x0C, 0x66), (0x0A, 0x6E), (0x0D, 0x72),
    (0x09, 0x74)]

/-- The printable ASCII characters, which stand for themselves. -/
def IsPrintable (c : CodePoint) : Prop :=
  0x20 ≤ c.val ∧ c.val ≤ 0x7E

instance (c : CodePoint) : Decidable (IsPrintable c) :=
  inferInstanceAs (Decidable (_ ∧ _))

/-- One code unit inside a string's text. -/
def escape (c : CodePoint) : Str :=
  match shorts.lookup c with
  | some letter => [backslash, letter]
  | none => if IsPrintable c then [c] else backslash :: 0x75 :: fixed 16 4 c.val

/-- A string's text: its code units, escaped, between quotation marks. -/
def dumpsStr (s : Str) : Str :=
  quote :: (encode16 s).flatMap escape ++ [quote]

/-- What stands between two items, `spaced` being whether a space follows. -/
def itemSep (spaced : Bool) : Str :=
  if spaced then text ", " else text ","

/-- What stands between a key and its value. -/
def keySep (spaced : Bool) : Str :=
  if spaced then text ": " else text ":"

mutual

/-- A value's text. -/
def dumps (spaced : Bool) : Json → Str
  | null => text "null"
  | bool true => text "true"
  | bool false => text "false"
  | int n => signed n
  | str s => dumpsStr s
  | arr [] => text "[]"
  | arr (x :: xs) => text "[" ++ (dumps spaced x ++ dumpsItems spaced xs)
  | obj [] => text "\x7b\x7d"
  | obj ((k, v) :: fs) =>
    text "\x7b" ++ (dumpsStr k ++ (keySep spaced ++ (dumps spaced v ++ dumpsFields spaced fs)))

/-- The items after the first, and the closing bracket. -/
def dumpsItems (spaced : Bool) : List Json → Str
  | [] => text "]"
  | x :: xs => itemSep spaced ++ (dumps spaced x ++ dumpsItems spaced xs)

/-- The fields after the first, and the closing brace. -/
def dumpsFields (spaced : Bool) : List (Str × Json) → Str
  | [] => text "\x7d"
  | (k, v) :: fs =>
    itemSep spaced ++ (dumpsStr k ++ (keySep spaced ++ (dumps spaced v ++ dumpsFields spaced fs)))

end

/-- Put a field where its key belongs among fields in order. -/
def insertField (f : Str × Json) : List (Str × Json) → List (Str × Json)
  | [] => [f]
  | g :: gs => if f.1 ≤ g.1 then f :: g :: gs else g :: insertField f gs

/-- The fields in order of their keys. -/
def sortFields : List (Str × Json) → List (Str × Json)
  | [] => []
  | f :: fs => insertField f (sortFields fs)

mutual

/-- The value with the fields of every object in order of their keys. -/
def sortKeys : Json → Json
  | null => null
  | bool b => bool b
  | int n => int n
  | str s => str s
  | arr xs => arr (sortItems xs)
  | obj fs => obj (sortFields (sortValues fs))

/-- The items of an array, each with its keys sorted. -/
def sortItems : List Json → List Json
  | [] => []
  | x :: xs => sortKeys x :: sortItems xs

/-- The fields of an object in place, each value with its keys sorted. -/
def sortValues : List (Str × Json) → List (Str × Json)
  | [] => []
  | (k, v) :: fs => (k, sortKeys v) :: sortValues fs

end

mutual

/-- No string of the value, key or not, holds a surrogate pair. -/
def NoPair : Json → Prop
  | str s => Text.NoPair s
  | arr xs => NoPairItems xs
  | obj fs => NoPairFields fs
  | _ => True

def NoPairItems : List Json → Prop
  | [] => True
  | x :: xs => NoPair x ∧ NoPairItems xs

def NoPairFields : List (Str × Json) → Prop
  | [] => True
  | (k, v) :: fs => Text.NoPair k ∧ NoPair v ∧ NoPairFields fs

end

/-! ### Strings -/

theorem shorts_lookup_mem {c l : CodePoint} (h : shorts.lookup c = some l) : (c, l) ∈ shorts := by
  rw [List.lookup_eq_some_iff] at h
  rcases h with ⟨as, bs, hsplit, _⟩
  rw [hsplit]
  exact List.mem_append_right _ List.mem_cons_self

/-- One two-character escape is one unit's, and none of them is the long one. -/
theorem shorts_inj {c d l : CodePoint} (hc : shorts.lookup c = some l)
    (hd : shorts.lookup d = some l) : c = d := by
  have hall : shorts.all (fun p => shorts.all fun q => p.2 = q.2 → p.1 = q.1) = true := by decide
  have hp := List.all_eq_true.mp hall _ (shorts_lookup_mem hc)
  exact of_decide_eq_true (List.all_eq_true.mp hp _ (shorts_lookup_mem hd)) rfl

theorem shorts_ne_u {c l : CodePoint} (h : shorts.lookup c = some l) : l ≠ 0x75 := by
  have hall : shorts.all (fun p => p.2 ≠ 0x75) = true := by decide
  exact of_decide_eq_true (List.all_eq_true.mp hall _ (shorts_lookup_mem h))

/-- A unit that stands for itself is neither of the two marks. -/
theorem ne_of_shorts_none {c : CodePoint} (h : shorts.lookup c = none) :
    c ≠ quote ∧ c ≠ backslash := by
  constructor
  · rintro rfl
    exact absurd h (by decide)
  · rintro rfl
    exact absurd h (by decide)

/-- What an escaped unit looks like: itself, or a backslash and a letter, or
    a backslash and its four hexadecimal digits. -/
theorem escape_cases (c : CodePoint) :
    (∃ l, shorts.lookup c = some l ∧ escape c = [backslash, l]) ∨
    (shorts.lookup c = none ∧ escape c = [c]) ∨
    (shorts.lookup c = none ∧ escape c = backslash :: 0x75 :: fixed 16 4 c.val) := by
  unfold escape
  cases h : shorts.lookup c with
  | some l => exact Or.inl ⟨l, rfl, rfl⟩
  | none =>
      by_cases hp : IsPrintable c
      · exact Or.inr (Or.inl ⟨rfl, if_pos hp⟩)
      · exact Or.inr (Or.inr ⟨rfl, if_neg hp⟩)

/-- An escaped unit never begins with the quotation mark that ends a string. -/
theorem escape_ne_quote (c : CodePoint) (r r' : Str) : escape c ++ r ≠ quote :: r' := by
  intro h
  rcases escape_cases c with ⟨l, _, hl⟩ | ⟨hn, hp⟩ | ⟨_, hu⟩
  · rw [hl] at h
    exact absurd (List.cons.inj h).1 (by decide)
  · rw [hp] at h
    exact (ne_of_shorts_none hn).1 (List.cons.inj h).1
  · rw [hu] at h
    exact absurd (List.cons.inj h).1 (by decide)

/-- One escaped unit is recognised off the front. -/
theorem escape_append_inj {c d : CodePoint} {r r' : Str} (hc : c.val < 0x10000)
    (hd : d.val < 0x10000) (h : escape c ++ r = escape d ++ r') : c = d ∧ r = r' := by
  -- A character is escaped by a letter, as itself or by its number, and how the escape goes on
  -- tells which.
  rcases escape_cases c with ⟨l, hl, hce⟩ | ⟨hcn, hce⟩ | ⟨hcn, hce⟩ <;>
  rcases escape_cases d with ⟨k, hk, hde⟩ | ⟨hdn, hde⟩ | ⟨hdn, hde⟩ <;>
  rw [hce, hde] at h <;>
  simp only [List.cons_append, List.nil_append, List.cons.injEq, true_and] at h
  · rcases h with ⟨rfl, hr⟩
    exact ⟨shorts_inj hl hk, hr⟩
  · exact absurd h.1.symm (ne_of_shorts_none hdn).2
  · exact absurd h.1 (shorts_ne_u hl)
  · exact absurd h.1 (ne_of_shorts_none hcn).2
  · exact h
  · exact absurd h.1 (ne_of_shorts_none hcn).2
  · exact absurd h.1.symm (shorts_ne_u hk)
  · exact absurd h.1.symm (ne_of_shorts_none hdn).2
  · rcases List.append_inj h (by rw [length_fixed, length_fixed]) with ⟨hdigits, hr⟩
    exact ⟨Fin.ext (fixed_inj (by decide) (by decide) hc hd hdigits), hr⟩

/-- The units of one string are recognised off the front, up to the quotation
    mark that ends it. -/
theorem escaped_append_inj {u v : Str} {r r' : Str} (hu : ∀ c ∈ u, c.val < 0x10000)
    (hv : ∀ c ∈ v, c.val < 0x10000)
    (h : u.flatMap escape ++ quote :: r = v.flatMap escape ++ quote :: r') :
    u = v ∧ r = r' := by
  induction u generalizing v with
  -- A closing quote is not where an escape begins, so both texts end together.
  | nil =>
      cases v with
      | nil => exact ⟨rfl, (List.cons.inj h).2⟩
      | cons d v =>
          rw [List.flatMap_cons, List.append_assoc] at h
          exact absurd h.symm (escape_ne_quote d _ _)
  | cons c u ih =>
      cases v with
      | nil =>
          rw [List.flatMap_cons, List.append_assoc] at h
          exact absurd h (escape_ne_quote c _ _)
      | cons d v =>
          rw [List.flatMap_cons, List.flatMap_cons, List.append_assoc, List.append_assoc] at h
          rcases escape_append_inj (hu c List.mem_cons_self) (hv d List.mem_cons_self) h with
            ⟨rfl, hrest⟩
          rcases ih (fun x hx => hu x (List.mem_cons_of_mem _ hx))
            (fun x hx => hv x (List.mem_cons_of_mem _ hx)) hrest with ⟨rfl, hr⟩
          exact ⟨rfl, hr⟩

/-- One string is recognised off the front. -/
theorem dumpsStr_append_inj {s t : Str} {r r' : Str} (hs : Text.NoPair s) (ht : Text.NoPair t)
    (h : dumpsStr s ++ r = dumpsStr t ++ r') : s = t ∧ r = r' := by
  simp only [dumpsStr, List.cons_append, List.append_assoc, List.nil_append, List.cons.injEq,
    true_and] at h
  rcases escaped_append_inj (encode16_lt s) (encode16_lt t) h with ⟨hunits, hr⟩
  exact ⟨encode16_injOn hs ht hunits, hr⟩

/-! ### Numbers -/

/-- The text goes on with something other than a digit, or not at all. -/
def Delimited (r : Str) : Prop :=
  ∀ c ∈ r.head?, ¬ IsDigit c

theorem delimited_nil : Delimited [] := by
  intro c hc
  simp only [List.head?_nil, Option.mem_def, reduceCtorEq] at hc

theorem delimited_cons {c : CodePoint} {r : Str} (h : ¬ IsDigit c) : Delimited (c :: r) := by
  intro d hd
  rw [List.head?_cons, Option.mem_def, Option.some.injEq] at hd
  exact hd ▸ h

/-- Digits end where the first other character stands. -/
theorem digits_append_inj {ds es r r' : Str} (hds : ∀ c ∈ ds, IsDigit c)
    (hes : ∀ c ∈ es, IsDigit c) (hr : Delimited r) (hr' : Delimited r')
    (h : ds ++ r = es ++ r') : ds = es ∧ r = r' := by
  -- Digits run on until something that is none.
  induction ds generalizing es with
  | nil =>
      cases es with
      | nil => exact ⟨rfl, h⟩
      | cons e es =>
          rw [List.nil_append] at h
          exact absurd (hes e List.mem_cons_self) (hr e (by rw [h]; rfl))
  | cons d ds ih =>
      cases es with
      | nil =>
          rw [List.nil_append] at h
          exact absurd (hds d List.mem_cons_self) (hr' d (by rw [← h]; rfl))
      | cons e es =>
          rcases List.cons.inj h with ⟨rfl, hrest⟩
          rcases ih (fun c hc => hds c (List.mem_cons_of_mem _ hc))
            (fun c hc => hes c (List.mem_cons_of_mem _ hc)) hrest with ⟨rfl, hr⟩
          exact ⟨rfl, hr⟩

theorem decimal_append_inj {n m : Nat} {r r' : Str} (hr : Delimited r) (hr' : Delimited r')
    (h : decimal n ++ r = decimal m ++ r') : n = m ∧ r = r' := by
  rcases digits_append_inj (fun _ => isDigit_of_mem_decimal) (fun _ => isDigit_of_mem_decimal)
    hr hr' h with ⟨hd, hrest⟩
  exact ⟨decimal_inj hd, hrest⟩

/-- A numeral begins with a digit, so it is not one with a minus sign. -/
theorem decimal_append_ne_minus (n : Nat) (r r' : Str) : decimal n ++ r ≠ text "-" ++ r' := by
  intro h
  rcases exists_cons_decimal n with ⟨c, rest, hc, hd⟩
  rw [hc, List.cons_append] at h
  have hhead : c = ofChar '-' := (List.cons.inj h).1
  rw [hhead] at hd
  exact absurd hd (by decide)

/-- One number is recognised off the front. -/
theorem signed_append_inj {n m : Int} {r r' : Str} (hr : Delimited r) (hr' : Delimited r')
    (h : signed n ++ r = signed m ++ r') : n = m ∧ r = r' := by
  cases n with
  | ofNat k =>
      cases m with
      | ofNat l =>
          rcases decimal_append_inj hr hr' h with ⟨rfl, hrest⟩
          exact ⟨rfl, hrest⟩
      | negSucc l =>
          rw [signed, signed, List.append_assoc] at h
          exact absurd h (decimal_append_ne_minus k _ _)
  | negSucc k =>
      cases m with
      | ofNat l =>
          rw [signed, signed, List.append_assoc] at h
          exact absurd h.symm (decimal_append_ne_minus l _ _)
      | negSucc l =>
          rw [signed, signed, List.append_assoc, List.append_assoc] at h
          rcases decimal_append_inj hr hr' (List.append_cancel_left h) with ⟨hkl, hrest⟩
          exact ⟨by rw [show k = l by omega], hrest⟩

/-! ### Values -/

/-- Which shape a value has, so that two of different shapes are told apart
    by their first character. -/
def shape : Json → Nat
  | null => 0
  | bool true => 1
  | bool false => 2
  | int _ => 3
  | str _ => 4
  | arr _ => 5
  | obj _ => 6

/-- Which shape a first character announces. -/
def announces (c : CodePoint) : Nat :=
  if c = 0x6E then 0 else if c = 0x74 then 1 else if c = 0x66 then 2 else if c = quote then 4
  else if c = 0x5B then 5 else if c = 0x7B then 6 else 3

theorem announces_of_isDigit {c : CodePoint} (h : IsDigit c) : announces c = 3 := by
  have hne : ∀ k : CodePoint, 0x39 < k.val ∨ k.val < 0x30 → c ≠ k := by
    rintro k hk rfl
    simp only [IsDigit] at h
    omega
  unfold announces
  rw [if_neg (hne _ (by decide)), if_neg (hne _ (by decide)), if_neg (hne _ (by decide)),
    if_neg (hne _ (by decide)), if_neg (hne _ (by decide)), if_neg (hne _ (by decide))]

/-- The first character of a value's text announces its shape. -/
theorem exists_cons_dumps (sp : Bool) (a : Json) :
    ∃ c rest, dumps sp a = c :: rest ∧ announces c = a.shape := by
  -- The first character tells of which kind the rest is.
  cases a with
  | null => exact ⟨_, _, rfl, by decide⟩
  | bool b =>
      cases b with
      | true => exact ⟨_, _, rfl, by decide⟩
      | false => exact ⟨_, _, rfl, by decide⟩
  | int n =>
      cases n with
      | ofNat k =>
          rcases exists_cons_decimal k with ⟨c, rest, hc, hd⟩
          exact ⟨c, rest, by rw [dumps, signed, hc], announces_of_isDigit hd⟩
      | negSucc k => exact ⟨ofChar '-', decimal (k + 1), rfl, by simp only [shape]; decide⟩
  | str s => exact ⟨quote, _, rfl, by simp only [shape]; decide⟩
  | arr xs =>
      cases xs with
      | nil => exact ⟨_, _, rfl, by decide⟩
      | cons x xs => exact ⟨ofChar '[', _, by rw [dumps]; rfl, by simp only [shape]; decide⟩
  | obj fs =>
      cases fs with
      | nil => exact ⟨_, _, rfl, by decide⟩
      | cons f fs => exact ⟨0x7B, _, by rw [dumps]; rfl, by simp only [shape]; decide⟩

/-- Two values whose texts begin the same way have one shape. -/
theorem shape_eq_of_append_eq {sp : Bool} {a b : Json} {r r' : Str}
    (h : dumps sp a ++ r = dumps sp b ++ r') : a.shape = b.shape := by
  rcases exists_cons_dumps sp a with ⟨c, s, hc, hca⟩
  rcases exists_cons_dumps sp b with ⟨d, t, hd, hdb⟩
  rw [hc, hd, List.cons_append, List.cons_append] at h
  rw [← hca, ← hdb, (List.cons.inj h).1]

/-- A value is never empty, and never begins with the bracket that closes the
    empty array. -/
theorem dumps_append_ne_bracket (sp : Bool) (a : Json) (r r' : Str) :
    dumps sp a ++ r ≠ text "]" ++ r' := by
  intro h
  rcases exists_cons_dumps sp a with ⟨c, s, hc, hca⟩
  rw [hc, List.cons_append] at h
  have hhead : c = ofChar ']' := (List.cons.inj h).1
  -- The closing bracket announces a number, and no number begins with one.
  have hshape : a.shape = 3 := by
    rw [← hca, hhead]
    decide
  cases a with
  | int n =>
      cases n with
      | ofNat k =>
          rcases exists_cons_decimal k with ⟨e, rest, he, hd⟩
          rw [dumps, signed, he] at hc
          rw [(List.cons.inj hc).1, hhead] at hd
          exact absurd hd (by decide)
      | negSucc k =>
          rw [dumps, signed] at hc
          have hminus : ofChar '-' = c := (List.cons.inj hc).1
          rw [hhead] at hminus
          exact absurd hminus (by decide)
  | null => exact absurd hshape (by decide)
  | bool b => cases b <;> exact absurd hshape (by decide)
  | str s => exact absurd hshape (by simp only [shape]; decide)
  | arr xs => exact absurd hshape (by simp only [shape]; decide)
  | obj fs => exact absurd hshape (by simp only [shape]; decide)

theorem exists_itemSep (sp : Bool) : ∃ rest, itemSep sp = 0x2C :: rest := by
  cases sp
  · exact ⟨_, rfl⟩
  · exact ⟨_, rfl⟩

theorem delimited_dumpsItems (sp : Bool) (xs : List Json) (r : Str) :
    Delimited (dumpsItems sp xs ++ r) := by
  cases xs with
  | nil => exact delimited_cons (by decide)
  | cons x xs =>
      rcases exists_itemSep sp with ⟨rest, hrest⟩
      rw [dumpsItems, hrest, List.cons_append, List.cons_append]
      exact delimited_cons (by decide)

theorem delimited_dumpsFields (sp : Bool) (fs : List (Str × Json)) (r : Str) :
    Delimited (dumpsFields sp fs ++ r) := by
  cases fs with
  | nil => exact delimited_cons (by decide)
  | cons f fs =>
      rcases exists_itemSep sp with ⟨rest, hrest⟩
      rw [dumpsFields, hrest, List.cons_append, List.cons_append]
      exact delimited_cons (by decide)

/-- The separator does not close a list. -/
theorem itemSep_append_ne (sp : Bool) (c : CodePoint) (hc : c ≠ 0x2C) (r r' : Str) :
    itemSep sp ++ r ≠ c :: r' := by
  intro h
  rcases exists_itemSep sp with ⟨rest, hrest⟩
  rw [hrest, List.cons_append] at h
  exact hc (List.cons.inj h).1.symm

mutual

/-- One value is recognised off the front, when what follows it does not go on
    with a digit. -/
theorem dumps_append_inj (sp : Bool) {r r' : Str} (hr : Delimited r) (hr' : Delimited r') :
    ∀ (a b : Json), NoPair a → NoPair b → dumps sp a ++ r = dumps sp b ++ r' → a = b ∧ r = r'
  | null, b, _, _, h => by
      have hshape := shape_eq_of_append_eq h
      cases b with
      | null => exact ⟨rfl, List.append_cancel_left h⟩
      | bool b => cases b <;> exact absurd hshape (by decide)
      | int _ | str _ | arr _ | obj _ => exact absurd hshape (by simp only [shape]; decide)
  | bool true, b, _, _, h => by
      have hshape := shape_eq_of_append_eq h
      cases b with
      | bool b =>
          cases b with
          | true => exact ⟨rfl, List.append_cancel_left h⟩
          | false => exact absurd hshape (by decide)
      | null | int _ | str _ | arr _ | obj _ => exact absurd hshape (by simp only [shape]; decide)
  | bool false, b, _, _, h => by
      have hshape := shape_eq_of_append_eq h
      cases b with
      | bool b =>
          cases b with
          | true => exact absurd hshape (by decide)
          | false => exact ⟨rfl, List.append_cancel_left h⟩
      | null | int _ | str _ | arr _ | obj _ => exact absurd hshape (by simp only [shape]; decide)
  | int n, b, _, _, h => by
      have hshape := shape_eq_of_append_eq h
      cases b with
      | int m =>
          rw [dumps, dumps] at h
          rcases signed_append_inj hr hr' h with ⟨rfl, hrest⟩
          exact ⟨rfl, hrest⟩
      | bool b => cases b <;> exact absurd hshape (by simp only [shape]; decide)
      | null | str _ | arr _ | obj _ => exact absurd hshape (by simp only [shape]; decide)
  | str s, b, ha, hb, h => by
      have hshape := shape_eq_of_append_eq h
      cases b with
      | str t =>
          rw [dumps, dumps] at h
          rw [NoPair] at ha hb
          rcases dumpsStr_append_inj ha hb h with ⟨rfl, hrest⟩
          exact ⟨rfl, hrest⟩
      | bool b => cases b <;> exact absurd hshape (by simp only [shape]; decide)
      | null | int _ | arr _ | obj _ => exact absurd hshape (by simp only [shape]; decide)
  | arr [], b, _, _, h => by
      have hshape := shape_eq_of_append_eq h
      cases b with
      | arr ys =>
          cases ys with
          | nil => exact ⟨rfl, List.append_cancel_left h⟩
          -- An empty array closes where the other has an item.
          | cons y ys =>
              simp only [dumps, List.append_assoc] at h
              have hbr : text "]" ++ r = dumps sp y ++ (dumpsItems sp ys ++ r') :=
                (List.cons.inj h).2
              exact absurd hbr.symm (dumps_append_ne_bracket sp y _ _)
      | bool b => cases b <;> exact absurd hshape (by simp only [shape]; decide)
      | null | int _ | str _ | obj _ => exact absurd hshape (by simp only [shape]; decide)
  | arr (x :: xs), b, ha, hb, h => by
      have hshape := shape_eq_of_append_eq h
      cases b with
      | arr ys =>
          cases ys with
          | nil =>
              simp only [dumps, List.append_assoc] at h
              have hbr : dumps sp x ++ (dumpsItems sp xs ++ r) = text "]" ++ r' :=
                (List.cons.inj h).2
              exact absurd hbr (dumps_append_ne_bracket sp x _ _)
          | cons y ys =>
              simp only [dumps, List.append_assoc] at h
              rw [NoPair, NoPairItems] at ha hb
              rcases dumps_append_inj sp (delimited_dumpsItems sp xs r)
                (delimited_dumpsItems sp ys r') x y ha.1 hb.1 (List.append_cancel_left h) with
                ⟨rfl, hxs⟩
              rcases dumpsItems_append_inj sp xs ys ha.2 hb.2 hxs with ⟨rfl, hrest⟩
              exact ⟨rfl, hrest⟩
      | bool b => cases b <;> exact absurd hshape (by simp only [shape]; decide)
      | null | int _ | str _ | obj _ => exact absurd hshape (by simp only [shape]; decide)
  | obj [], b, _, _, h => by
      have hshape := shape_eq_of_append_eq h
      cases b with
      | obj gs =>
          cases gs with
          | nil => exact ⟨rfl, List.append_cancel_left h⟩
          -- An empty object closes where the other has a key.
          | cons g gs =>
              simp only [dumps, List.append_assoc] at h
              have hbrace : text "\x7d" ++ r = dumpsStr g.1 ++ _ := (List.cons.inj h).2
              exact absurd (List.cons.inj hbrace).1 (by decide)
      | bool b => cases b <;> exact absurd hshape (by simp only [shape]; decide)
      | null | int _ | str _ | arr _ => exact absurd hshape (by simp only [shape]; decide)
  | obj ((k, v) :: fs), b, ha, hb, h => by
      have hshape := shape_eq_of_append_eq h
      cases b with
      | obj gs =>
          cases gs with
          | nil =>
              simp only [dumps, List.append_assoc] at h
              have hbrace : dumpsStr k ++ _ = text "\x7d" ++ r' := (List.cons.inj h).2
              exact absurd (List.cons.inj hbrace).1 (by decide)
          | cons g gs =>
              simp only [dumps, List.append_assoc] at h
              rw [NoPair, NoPairFields] at ha hb
              rcases field_append_inj sp v g.2 fs gs ha hb (List.append_cancel_left h) with
                ⟨hk, hv, hfs, hrest⟩
              exact ⟨by rw [hk, hv, hfs], hrest⟩
      | bool b => cases b <;> exact absurd hshape (by simp only [shape]; decide)
      | null | int _ | str _ | arr _ => exact absurd hshape (by simp only [shape]; decide)
termination_by a => sizeOf a

theorem dumpsItems_append_inj (sp : Bool) {r r' : Str} :
    ∀ (xs ys : List Json), NoPairItems xs → NoPairItems ys →
      dumpsItems sp xs ++ r = dumpsItems sp ys ++ r' → xs = ys ∧ r = r'
  | [], ys, _, _, h => by
      cases ys with
      | nil => exact ⟨rfl, List.append_cancel_left h⟩
      | cons y ys =>
          rw [dumpsItems, dumpsItems, List.append_assoc] at h
          exact absurd h.symm (itemSep_append_ne sp _ (by decide) _ _)
  | x :: xs, ys, ha, hb, h => by
      cases ys with
      | nil =>
          rw [dumpsItems, dumpsItems, List.append_assoc] at h
          exact absurd h (itemSep_append_ne sp _ (by decide) _ _)
      | cons y ys =>
          rw [dumpsItems, dumpsItems, List.append_assoc, List.append_assoc, List.append_assoc,
            List.append_assoc] at h
          rw [NoPairItems] at ha hb
          rcases dumps_append_inj sp (delimited_dumpsItems sp xs r)
            (delimited_dumpsItems sp ys r') x y ha.1 hb.1 (List.append_cancel_left h) with
            ⟨rfl, hxs⟩
          rcases dumpsItems_append_inj sp xs ys ha.2 hb.2 hxs with ⟨rfl, hrest⟩
          exact ⟨rfl, hrest⟩
termination_by xs => sizeOf xs

/-- A key, its value and the fields after it are recognised off the front. -/
theorem field_append_inj (sp : Bool) {r r' : Str} {k l : Str} :
    ∀ (v w : Json) (fs gs : List (Str × Json)),
      Text.NoPair k ∧ NoPair v ∧ NoPairFields fs → Text.NoPair l ∧ NoPair w ∧ NoPairFields gs →
      dumpsStr k ++ (keySep sp ++ (dumps sp v ++ (dumpsFields sp fs ++ r))) =
        dumpsStr l ++ (keySep sp ++ (dumps sp w ++ (dumpsFields sp gs ++ r'))) →
      k = l ∧ v = w ∧ fs = gs ∧ r = r'
  | v, w, fs, gs, ha, hb, h => by
      rcases dumpsStr_append_inj ha.1 hb.1 h with ⟨hk, hv⟩
      rcases dumps_append_inj sp (delimited_dumpsFields sp fs r) (delimited_dumpsFields sp gs r')
        v w ha.2.1 hb.2.1 (List.append_cancel_left hv) with ⟨hv, hfs⟩
      rcases dumpsFields_append_inj sp fs gs ha.2.2 hb.2.2 hfs with ⟨hfs, hrest⟩
      exact ⟨hk, hv, hfs, hrest⟩
termination_by v _ fs => 1 + sizeOf v + sizeOf fs

theorem dumpsFields_append_inj (sp : Bool) {r r' : Str} :
    ∀ (fs gs : List (Str × Json)), NoPairFields fs → NoPairFields gs →
      dumpsFields sp fs ++ r = dumpsFields sp gs ++ r' → fs = gs ∧ r = r'
  | [], gs, _, _, h => by
      cases gs with
      | nil => exact ⟨rfl, List.append_cancel_left h⟩
      | cons g gs =>
          rw [dumpsFields, dumpsFields, List.append_assoc] at h
          exact absurd h.symm (itemSep_append_ne sp _ (by decide) _ _)
  | (k, v) :: fs, gs, ha, hb, h => by
      cases gs with
      | nil =>
          rw [dumpsFields, dumpsFields, List.append_assoc] at h
          exact absurd h (itemSep_append_ne sp _ (by decide) _ _)
      | cons g gs =>
          simp only [dumpsFields, List.append_assoc] at h
          rw [NoPairFields] at ha hb
          rcases field_append_inj sp v g.2 fs gs ha hb (List.append_cancel_left h) with
            ⟨hk, hv, hfs, hrest⟩
          exact ⟨by rw [hk, hv, hfs], hrest⟩
termination_by fs => sizeOf fs

end

/-- A text determines the value it is of. -/
theorem dumps_inj (sp : Bool) {a b : Json} (ha : NoPair a) (hb : NoPair b)
    (h : dumps sp a = dumps sp b) : a = b :=
  (dumps_append_inj sp delimited_nil delimited_nil a b ha hb (by rw [h])).1

/-! ### Sorted and dumped -/

theorem noPairItems_iff {xs : List Json} : NoPairItems xs ↔ ∀ x ∈ xs, NoPair x := by
  induction xs with
  | nil => simp only [NoPairItems, List.not_mem_nil, false_imp_iff, implies_true]
  | cons x xs ih => rw [NoPairItems, ih, List.forall_mem_cons]

theorem noPairFields_iff {fs : List (Str × Json)} :
    NoPairFields fs ↔ ∀ f ∈ fs, Text.NoPair f.1 ∧ NoPair f.2 := by
  induction fs with
  | nil => simp only [NoPairFields, List.not_mem_nil, false_imp_iff, implies_true]
  | cons f fs ih =>
      rcases f with ⟨k, v⟩
      rw [NoPairFields, ih, List.forall_mem_cons, and_assoc]

theorem insertField_perm (f : Str × Json) (fs : List (Str × Json)) :
    (insertField f fs).Perm (f :: fs) := by
  induction fs with
  | nil => exact List.Perm.refl _
  | cons g gs ih =>
      rw [insertField]
      split
      · exact List.Perm.refl _
      · exact (ih.cons g).trans (List.Perm.swap f g gs)

/-- Sorting the fields of an object loses none. -/
theorem sortFields_perm (fs : List (Str × Json)) : (sortFields fs).Perm fs := by
  induction fs with
  | nil => exact List.Perm.nil
  | cons f fs ih => exact (insertField_perm f _).trans (ih.cons f)

mutual

/-- Sorting the keys changes no string. -/
theorem noPair_sortKeys (j : Json) (h : NoPair j) : NoPair j.sortKeys := by
  cases j with
  | null | bool | int | str => exact h
  | arr xs => exact noPairItems_sortItems xs h
  | obj fs =>
      have hvalues := noPairFields_iff.mp (noPairFields_sortValues fs h)
      exact noPairFields_iff.mpr fun f hf => hvalues f ((sortFields_perm _).mem_iff.mp hf)

theorem noPairItems_sortItems (xs : List Json) (h : NoPairItems xs) :
    NoPairItems (sortItems xs) := by
  cases xs with
  | nil => exact h
  | cons x xs => exact ⟨noPair_sortKeys x h.1, noPairItems_sortItems xs h.2⟩

theorem noPairFields_sortValues (fs : List (Str × Json)) (h : NoPairFields fs) :
    NoPairFields (sortValues fs) := by
  cases fs with
  | nil => exact h
  | cons f fs =>
      rcases f with ⟨k, v⟩
      exact ⟨h.1, noPair_sortKeys v h.2.1, noPairFields_sortValues fs h.2.2⟩

end

/-! ### Values that are dumped alike -/

/-- Sorted and dumped, two values are one text. -/
def Alike (sp : Bool) (a b : Json) : Prop :=
  dumps sp a.sortKeys = dumps sp b.sortKeys

theorem alike_refl (sp : Bool) (a : Json) : Alike sp a a := rfl

/-- A string and what its code units read as are written with the same code
    units. -/
theorem dumpsStr_decode16 (s : Str) : dumpsStr (decode16 (encode16 s)) = dumpsStr s := by
  rw [dumpsStr, encode16_decode16 _ (encode16_lt s), dumpsStr]

theorem alike_str (sp : Bool) (s : Str) : Alike sp (str (decode16 (encode16 s))) (str s) := by
  simp only [Alike, sortKeys, dumps, dumpsStr_decode16]

/-- Arrays are dumped alike item by item. -/
theorem alike_arr {sp : Bool} {xs ys : List Json} (h : List.Forall₂ (Alike sp) xs ys) :
    Alike sp (arr xs) (arr ys) := by
  have hitems : ∀ {xs ys : List Json}, List.Forall₂ (Alike sp) xs ys →
      dumpsItems sp (sortItems xs) = dumpsItems sp (sortItems ys) := by
    intro xs ys h
    induction h with
    | nil => rfl
    | cons hxy _ ih => rw [sortItems, sortItems, dumpsItems, dumpsItems, hxy, ih]
  cases h with
  | nil => rfl
  | cons hxy hrest =>
      simp only [Alike, sortKeys, sortItems, dumps]
      rw [hxy, hitems hrest]

/-- Two fields have one key, and values that are one text. -/
def SameField (sp : Bool) (f g : Str × Json) : Prop :=
  f.1 = g.1 ∧ dumps sp f.2 = dumps sp g.2

/-- Where a field is put depends on the keys only. -/
theorem sameField_insertField {sp : Bool} {f g : Str × Json} {fs gs : List (Str × Json)}
    (hfg : SameField sp f g) (h : List.Forall₂ (SameField sp) fs gs) :
    List.Forall₂ (SameField sp) (insertField f fs) (insertField g gs) := by
  induction h with
  | nil => exact List.Forall₂.cons hfg List.Forall₂.nil
  | cons hhead hrest ih =>
      rw [insertField, insertField, hfg.1, hhead.1]
      split
      · exact List.Forall₂.cons hfg (List.Forall₂.cons hhead hrest)
      · exact List.Forall₂.cons hhead ih

theorem sameField_sortFields {sp : Bool} {fs gs : List (Str × Json)}
    (h : List.Forall₂ (SameField sp) fs gs) :
    List.Forall₂ (SameField sp) (sortFields fs) (sortFields gs) := by
  induction h with
  | nil => exact List.Forall₂.nil
  | cons hhead _ ih => exact sameField_insertField hhead ih

theorem dumps_obj_congr {sp : Bool} {fs gs : List (Str × Json)}
    (h : List.Forall₂ (SameField sp) fs gs) : dumps sp (obj fs) = dumps sp (obj gs) := by
  -- Fields are written one after another, so each may be put in another's place.
  have hfields : ∀ {fs gs : List (Str × Json)}, List.Forall₂ (SameField sp) fs gs →
      dumpsFields sp fs = dumpsFields sp gs := by
    intro fs gs h
    induction h with
    | nil => rfl
    | @cons f g _ _ hfg _ ih =>
        rcases f with ⟨k, v⟩
        rcases g with ⟨l, w⟩
        rw [dumpsFields, dumpsFields, show k = l from hfg.1,
          show dumps sp v = dumps sp w from hfg.2, ih]
  cases h with
  | nil => rfl
  | @cons f g _ _ hfg hrest =>
      rcases f with ⟨k, v⟩
      rcases g with ⟨l, w⟩
      rw [dumps, dumps, show k = l from hfg.1, show dumps sp v = dumps sp w from hfg.2,
        hfields hrest]

/-- Objects with the same keys are dumped alike value by value. -/
theorem alike_obj {sp : Bool} {names : List Str} {vs ws : List Json}
    (h : List.Forall₂ (Alike sp) vs ws) : Alike sp (obj (names.zip vs)) (obj (names.zip ws)) := by
  refine dumps_obj_congr (sameField_sortFields ?_)
  induction h generalizing names with
  | nil =>
      rw [List.zip_nil_right]
      exact List.Forall₂.nil
  | cons hvw _ ih =>
      cases names with
      | nil => exact List.Forall₂.nil
      | cons name names => exact List.Forall₂.cons ⟨rfl, hvw⟩ ih

end Json

end Theory
