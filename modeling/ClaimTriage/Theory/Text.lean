import Mathlib.Algebra.Ring.Nat
import Mathlib.Data.List.Chain
import Mathlib.Data.List.Infix
import Mathlib.Data.List.Lex
import Mathlib.Order.Fin.Basic

/-!
# Text as Code Points

A string of a language whose strings are sequences of code points rather than
of scalar values: a surrogate may stand on its own in one, and two of them may
stand next to each other without being the character they would encode.

That last case is where the encodings of this layer stop being injective.
`encode16` writes every code point above the basic plane as two surrogates, so
a high surrogate that already stands before a low one is written exactly as
the one character the pair encodes. `NoPair` rules the case out, and
`encode16_injOn` is injectivity under it. Every text that was decoded from
UTF-8 or UTF-16 satisfies `NoPair`; a text put together code point by code
point need not.

## Main definitions

* `CodePoint`: A Unicode code point, the surrogates included.
* `Str`: A text, code point by code point.
* `text`: The text of a literal.
* `NoPair`: No high surrogate stands directly before a low one.
* `Printable`: Every code point is a printable ASCII character.
* `encode`: The UTF-8 bytes of a text.
* `encode16`: The UTF-16 code units of a text.
* `decode16`: The text a sequence of code units reads as.

## Theorems

* `decode16_encode16`: Reading back the code units of a text without pairs.
* `encode16_injOn`: Texts without pairs are told apart by their code units.
* `encode16_decode16`: Writing the text a sequence of code units reads as.
* `noPair_decode16`: What is read from code units holds no pair.
-/

namespace Theory

/-- A Unicode code point, the surrogates included. -/
abbrev CodePoint := Fin 0x110000

/-- There are code points, so a numeral names one. -/
instance instNeZeroCodePoints : NeZero 0x110000 :=
  ⟨by decide⟩

instance instLawfulBEqCodePoint : LawfulBEq CodePoint :=
  inferInstance

/-- A text, code point by code point. -/
abbrev Str := List CodePoint

instance instLawfulBEqStr : LawfulBEq Str :=
  inferInstance

namespace Text

/-- A character of a literal as the code point it is. -/
def ofChar (c : Char) : CodePoint :=
  ⟨c.val.toNat, by
    have h := c.valid
    simp only [UInt32.isValidChar, Nat.isValidChar] at h
    omega⟩

/-- The text of a literal. -/
def text (s : String) : Str :=
  s.toList.map ofChar

/-- A leading surrogate. -/
def IsHigh (c : CodePoint) : Prop :=
  0xD800 ≤ c.val ∧ c.val < 0xDC00

/-- A trailing surrogate. -/
def IsLow (c : CodePoint) : Prop :=
  0xDC00 ≤ c.val ∧ c.val < 0xE000

instance (c : CodePoint) : Decidable (IsHigh c) :=
  inferInstanceAs (Decidable (_ ∧ _))

instance (c : CodePoint) : Decidable (IsLow c) :=
  inferInstanceAs (Decidable (_ ∧ _))

/-- No high surrogate stands directly before a low one. -/
def NoPair (s : Str) : Prop :=
  s.IsChain fun a b => ¬ (IsHigh a ∧ IsLow b)

instance (s : Str) : Decidable (NoPair s) :=
  inferInstanceAs (Decidable (List.IsChain _ s))

/-- The high surrogate of a code point above the basic plane. -/
def highOf (c : CodePoint) : CodePoint :=
  ⟨0xD800 + (c.val - 0x10000) / 0x400, by omega⟩

/-- The low surrogate of a code point above the basic plane. -/
def lowOf (c : CodePoint) : CodePoint :=
  ⟨0xDC00 + (c.val - 0x10000) % 0x400, by omega⟩

/-- Every code point is a printable ASCII character. -/
def Printable (s : Str) : Prop :=
  ∀ c ∈ s, 0x20 ≤ c.val ∧ c.val < 0x7F

instance (s : Str) : Decidable (Printable s) :=
  List.decidableBAll _ s

/-- The UTF-8 bytes of one code point. A surrogate is written as the other
    code points of three bytes are. -/
def utf8 (c : CodePoint) : List Nat :=
  if c.val < 0x80 then [c.val]
  else if c.val < 0x800 then [0xC0 + c.val / 0x40, 0x80 + c.val % 0x40]
  else if c.val < 0x10000 then
    [0xE0 + c.val / 0x1000, 0x80 + c.val / 0x40 % 0x40, 0x80 + c.val % 0x40]
  else
    [0xF0 + c.val / 0x40000, 0x80 + c.val / 0x1000 % 0x40, 0x80 + c.val / 0x40 % 0x40,
      0x80 + c.val % 0x40]

/-- The UTF-8 bytes of a text. -/
def encode (s : Str) : List Nat :=
  s.flatMap utf8

/-- The UTF-16 code units of one code point. A surrogate is its own unit. -/
def units (c : CodePoint) : Str :=
  if c.val < 0x10000 then [c] else [highOf c, lowOf c]

/-- The UTF-16 code units of a text. -/
def encode16 (s : Str) : Str :=
  s.flatMap units

/-- The code point two surrogates encode together. -/
def combine (hi lo : CodePoint) : CodePoint :=
  ⟨0x10000 + (hi.val - 0xD800) % 0x400 * 0x400 + (lo.val - 0xDC00) % 0x400, by omega⟩

/-- The text a sequence of code units reads as: a surrogate pair is the one
    code point it encodes, and any other unit is itself. -/
def decode16 : Str → Str
  | [] => []
  | [c] => [c]
  | a :: b :: rest =>
    if IsHigh a ∧ IsLow b then combine a b :: decode16 rest else a :: decode16 (b :: rest)

theorem printable_nil : Printable [] := fun _ h => absurd h List.not_mem_nil

@[simp]
theorem printable_cons (c : CodePoint) (s : Str) :
    Printable (c :: s) ↔ (0x20 ≤ c.val ∧ c.val < 0x7F) ∧ Printable s :=
  List.forall_mem_cons

@[simp]
theorem printable_append (s t : Str) : Printable (s ++ t) ↔ Printable s ∧ Printable t :=
  List.forall_mem_append

/-- A printable text holds no surrogate, and so no pair of them. -/
theorem noPair_of_printable {s : Str} (h : Printable s) : NoPair s := by
  induction s with
  | nil => exact List.IsChain.nil
  | cons a rest ih =>
      have ha := h a List.mem_cons_self
      refine List.isChain_cons.mpr ⟨fun b _ hpair => ?_,
        ih fun c hc => h c (List.mem_cons_of_mem _ hc)⟩
      simp only [IsHigh] at hpair
      omega

theorem units_of_lt {c : CodePoint} (h : c.val < 0x10000) : units c = [c] := if_pos h

theorem units_of_ge {c : CodePoint} (h : 0x10000 ≤ c.val) : units c = [highOf c, lowOf c] :=
  if_neg (by omega)

theorem isHigh_highOf {c : CodePoint} : IsHigh (highOf c) := by
  simp only [IsHigh, highOf]
  omega

theorem isLow_lowOf {c : CodePoint} : IsLow (lowOf c) := by
  simp only [IsLow, lowOf]
  omega

theorem combine_highOf_lowOf {c : CodePoint} (h : 0x10000 ≤ c.val) :
    combine (highOf c) (lowOf c) = c := by
  apply Fin.ext
  simp only [combine, highOf, lowOf]
  omega

theorem combine_ge (hi lo : CodePoint) : 0x10000 ≤ (combine hi lo).val := by
  simp only [combine]
  omega

theorem highOf_combine {hi lo : CodePoint} (h : IsHigh hi) : highOf (combine hi lo) = hi := by
  apply Fin.ext
  simp only [IsHigh, highOf, combine] at *
  omega

theorem lowOf_combine {hi lo : CodePoint} (h : IsLow lo) : lowOf (combine hi lo) = lo := by
  apply Fin.ext
  simp only [IsLow, lowOf, combine] at *
  omega

/-- A unit before anything that does not complete a pair is read as itself. -/
theorem decode16_cons {a : CodePoint} {u : Str} (h : ∀ b ∈ u.head?, ¬ (IsHigh a ∧ IsLow b)) :
    decode16 (a :: u) = a :: decode16 u := by
  cases u with
  | nil => rfl
  | cons b rest =>
      rw [decode16, if_neg (h b rfl)]

theorem decode16_pair {a b : CodePoint} {u : Str} (ha : IsHigh a) (hb : IsLow b) :
    decode16 (a :: b :: u) = combine a b :: decode16 u := by
  rw [decode16, if_pos ⟨ha, hb⟩]

/-- The first unit of a text is the first code point of it, or a high
    surrogate. A low surrogate leads the units only where it leads the text. -/
theorem head_encode16 {s : Str} {b : CodePoint} (h : b ∈ (encode16 s).head?) (hb : IsLow b) :
    b ∈ s.head? := by
  cases s with
  | nil => simp only [encode16, List.flatMap_nil, List.head?_nil, Option.mem_def,
      reduceCtorEq] at h
  | cons c rest =>
      rcases Nat.lt_or_ge c.val 0x10000 with hc | hc
      · simpa only [encode16, List.flatMap_cons, units_of_lt hc, List.cons_append,
          List.head?_cons] using h
      · simp only [encode16, List.flatMap_cons, units_of_ge hc, List.cons_append,
          List.head?_cons, Option.mem_def, Option.some.injEq] at h
        have hh : IsHigh b := h ▸ isHigh_highOf
        exact absurd hb.1 (by simp only [IsHigh] at hh; omega)

/-- Reading back the code units of a text gives the text, when no two of its
    code points would be read as one. -/
theorem decode16_encode16 (s : Str) (h : NoPair s) : decode16 (encode16 s) = s := by
  induction s with
  | nil => rfl
  | cons c rest ih =>
      have hrest : NoPair rest := List.IsChain.tail h
      rcases Nat.lt_or_ge c.val 0x10000 with hc | hc
      · -- A character of one unit is not the first half of what follows it.
        have hhead : ∀ b ∈ (encode16 rest).head?, ¬ (IsHigh c ∧ IsLow b) := by
          rintro b hb ⟨hhi, hlo⟩
          have hmem := head_encode16 hb hlo
          cases rest with
          | nil => simp only [List.head?_nil, Option.mem_def, reduceCtorEq] at hmem
          | cons d rest' =>
              simp only [List.head?_cons, Option.mem_def, Option.some.injEq] at hmem
              subst hmem
              exact (List.isChain_cons_cons.mp h).1 ⟨hhi, hlo⟩
        have henc : encode16 (c :: rest) = c :: encode16 rest := by
          simp only [encode16, List.flatMap_cons, units_of_lt hc, List.cons_append,
            List.nil_append]
        rw [henc, decode16_cons hhead, ih hrest]
      · have henc : encode16 (c :: rest) = highOf c :: lowOf c :: encode16 rest := by
          simp only [encode16, List.flatMap_cons, units_of_ge hc, List.cons_append,
            List.nil_append]
        rw [henc, decode16_pair isHigh_highOf isLow_lowOf, combine_highOf_lowOf hc, ih hrest]

/-- Texts without pairs are told apart by their code units. -/
theorem encode16_injOn {s t : Str} (hs : NoPair s) (ht : NoPair t)
    (h : encode16 s = encode16 t) : s = t := by
  rw [← decode16_encode16 s hs, h, decode16_encode16 t ht]

/-- Every code unit of a text is below the basic plane's end. -/
theorem encode16_lt (s : Str) : ∀ u ∈ encode16 s, u.val < 0x10000 := by
  intro u hu
  rcases List.mem_flatMap.mp hu with ⟨c, _, hc⟩
  rcases Nat.lt_or_ge c.val 0x10000 with hlt | hge
  · rw [units_of_lt hlt, List.mem_singleton] at hc
    rw [hc]
    exact hlt
  · rw [units_of_ge hge] at hc
    simp only [List.mem_cons, List.not_mem_nil, or_false] at hc
    -- The two halves of a pair are both below the range that needs pairs.
    rcases hc with rfl | rfl
    · simp only [highOf]
      omega
    · simp only [lowOf]
      omega

/-- Writing the text a sequence of code units reads as gives the units back:
    reading only ever joins a pair that writing splits again. -/
theorem encode16_decode16 (u : Str) (h : ∀ c ∈ u, c.val < 0x10000) :
    encode16 (decode16 u) = u := by
  induction u using decode16.induct with
  | case1 => rfl
  | case2 c =>
      simp only [decode16, encode16, List.flatMap_cons, List.flatMap_nil, List.append_nil]
      exact units_of_lt (h c (List.mem_singleton.mpr rfl))
  | case3 a b rest hpair ih =>
      have hrest := ih fun c hc => h c (List.mem_cons_of_mem _ (List.mem_cons_of_mem _ hc))
      -- A pair that is put together comes apart into itself.
      rw [decode16_pair hpair.1 hpair.2]
      simp only [encode16, List.flatMap_cons] at hrest ⊢
      rw [units_of_ge (combine_ge a b), highOf_combine hpair.1, lowOf_combine hpair.2, hrest]
      rfl
  | case4 a b rest hpair ih =>
      have hrest := ih fun c hc => h c (List.mem_cons_of_mem _ hc)
      rw [decode16, if_neg hpair]
      simp only [encode16, List.flatMap_cons] at hrest ⊢
      rw [units_of_lt (h a List.mem_cons_self), hrest]
      rfl

/-- A low surrogate leads what is read only where it leads the units. -/
theorem head_decode16 {u : Str} {b : CodePoint} (h : b ∈ (decode16 u).head?) (hb : IsLow b) :
    b ∈ u.head? := by
  induction u using decode16.induct with
  | case1 => exact h
  | case2 c => exact h
  | case3 a c rest hpair _ =>
      rw [decode16_pair hpair.1 hpair.2] at h
      simp only [List.head?_cons, Option.mem_def, Option.some.injEq] at h
      -- What a pair is put together to is above every surrogate.
      have hge := combine_ge a c
      rw [h] at hge
      exact absurd hb.2 (by omega)
  | case4 a c rest hpair _ =>
      rw [decode16, if_neg hpair] at h
      simpa only [List.head?_cons] using h

/-- What is read from code units holds no pair, so no decoder can hand one
    over. -/
theorem noPair_decode16 (u : Str) : NoPair (decode16 u) := by
  induction u using decode16.induct with
  | case1 => exact List.IsChain.nil
  | case2 c => exact List.IsChain.singleton c
  | case3 a b rest hpair ih =>
      rw [decode16_pair hpair.1 hpair.2]
      refine List.isChain_cons.mpr ⟨fun c _ hc => ?_, ih⟩
      -- What a pair is put together to is no first half of another.
      have hge := combine_ge a b
      exact absurd hc.1.2 (by omega)
  | case4 a b rest hpair ih =>
      rw [decode16, if_neg hpair]
      refine List.isChain_cons.mpr ⟨fun c hc hac => ?_, ih⟩
      have hmem := head_decode16 hc hac.2
      simp only [List.head?_cons, Option.mem_def, Option.some.injEq] at hmem
      subst hmem
      exact hpair hac

end Text

end Theory
