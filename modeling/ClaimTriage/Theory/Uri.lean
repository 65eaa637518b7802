import ClaimTriage.Theory.Text

/-!
# Paths of a URI

What happens to a text on its way into a path and out of it again.

A text is quoted to stand in a path: the bytes of its UTF-8 are written as they
are where they are letters, digits or one of four marks, and as two hexadecimal
digits elsewhere. Quoting is undone by whoever reads the path. Between the two
stands the path itself, whose dot segments are removed: quoting leaves dots
alone, so a text that is a dot segment does not arrive, although every quoted
text reads back.

A path is matched against a template by its segments, and a hole in a template
takes one segment that is not empty. A text with a slash in it is quoted without
one, and has it back once the path is read.

## Main definitions

* `Scalar`, `Scalars`: A code point, and a text, that UTF-8 has bytes for.
* `decodeUtf8`: The text some bytes are the UTF-8 of.
* `quote`, `unquote`: A text as it stands in a path, and as it is read.
* `removeDotSegments`: An absolute path without its dot segments.
* `Part.matchAll`: What the holes of a template take of a path's segments.

## Theorems

* `decodeUtf8_encode`: What was encoded is decoded.
* `unquote_append`: What was quoted after a plain text is read.
* `quote_of_unreserved`: What quoting leaves alone.
* `quote_inj`: Texts are told apart by what they are quoted as.
* `slash_notMem_quote`: No quoted text has a slash in it.
* `removeDots_of_plain`: Segments that are no dot segments stay.
-/

namespace Theory

namespace Uri

open Text

/-! ### UTF-8 -/

/-- A code point that UTF-8 has bytes for: no surrogate. -/
def Scalar (c : CodePoint) : Prop :=
  ¬ (0xD800 ≤ c.val ∧ c.val < 0xE000)

instance (c : CodePoint) : Decidable (Scalar c) :=
  inferInstanceAs (Decidable (¬ _))

/-- A text that UTF-8 has bytes for. -/
def Scalars (s : Str) : Prop :=
  ∀ c ∈ s, Scalar c

instance (s : Str) : Decidable (Scalars s) :=
  List.decidableBAll _ s

/-- The code point some bytes are the UTF-8 of, if it is this one. -/
def point (n : Nat) (bytes : List Nat) : Option CodePoint :=
  if h : n < 0x110000 then
    if Scalar ⟨n, h⟩ ∧ utf8 ⟨n, h⟩ = bytes then some ⟨n, h⟩ else none
  else none

/-- The text some bytes are the UTF-8 of, if they are of any: the first byte of
    a code point says how many there are. -/
def decodeUtf8 : List Nat → Option Str
  | [] => some []
  | a :: rest =>
    if a < 0x80 then (point a [a]).bind fun c => (decodeUtf8 rest).map (c :: ·)
    else match rest with
      | [] => none
      | b :: rest =>
        if a < 0xE0 then
          (point (a % 0x20 * 0x40 + b % 0x40) [a, b]).bind fun c => (decodeUtf8 rest).map (c :: ·)
        else match rest with
          | [] => none
          | b' :: rest =>
            if a < 0xF0 then
              (point (a % 0x10 * 0x1000 + b % 0x40 * 0x40 + b' % 0x40) [a, b, b']).bind fun c =>
                (decodeUtf8 rest).map (c :: ·)
            else match rest with
              | [] => none
              | b'' :: rest =>
                (point (a % 0x08 * 0x40000 + b % 0x40 * 0x1000 + b' % 0x40 * 0x40 + b'' % 0x40)
                  [a, b, b', b'']).bind fun c => (decodeUtf8 rest).map (c :: ·)

theorem point_utf8 {c : CodePoint} (h : Scalar c) {n : Nat} (hn : n = c.val) :
    point n (utf8 c) = some c := by
  subst hn
  rw [point, dif_pos c.isLt, if_pos ⟨h, rfl⟩]

/-- One code point is decoded, and what is after it. -/
theorem decodeUtf8_utf8 {c : CodePoint} (h : Scalar c) (bytes : List Nat) :
    decodeUtf8 (utf8 c ++ bytes) = (decodeUtf8 bytes).map (c :: ·) := by
  have hlt := c.isLt
  have hpoint : ∀ n, n = c.val → point n (utf8 c) = some c := fun n hn => point_utf8 h hn
  -- The cases are the lengths of a code point's bytes.
  unfold utf8 at hpoint ⊢
  by_cases h1 : c.val < 0x80
  · simp only [if_pos h1] at hpoint ⊢
    rw [List.cons_append, List.nil_append, decodeUtf8.eq_def]
    simp only
    rw [if_pos h1, hpoint _ rfl, Option.bind_some]
  · by_cases h2 : c.val < 0x800
    · simp only [if_neg h1, if_pos h2] at hpoint ⊢
      rw [List.cons_append, List.cons_append, List.nil_append, decodeUtf8.eq_def]
      simp only
      rw [if_neg (by omega), if_pos (by omega), hpoint _ (by omega), Option.bind_some]
    · by_cases h3 : c.val < 0x10000
      · simp only [if_neg h1, if_neg h2, if_pos h3] at hpoint ⊢
        rw [List.cons_append, List.cons_append, List.cons_append, List.nil_append,
          decodeUtf8.eq_def]
        simp only
        rw [if_neg (by omega), if_neg (by omega), if_pos (by omega), hpoint _ (by omega),
          Option.bind_some]
      · simp only [if_neg h1, if_neg h2, if_neg h3] at hpoint ⊢
        rw [List.cons_append, List.cons_append, List.cons_append, List.cons_append,
          List.nil_append, decodeUtf8.eq_def]
        simp only
        rw [if_neg (by omega), if_neg (by omega), if_neg (by omega), hpoint _ (by omega),
          Option.bind_some]

/-- What was encoded is decoded. -/
theorem decodeUtf8_encode {s : Str} (h : Scalars s) : decodeUtf8 (encode s) = some s := by
  induction s with
  | nil => rfl
  | cons c s ih =>
      have hcons : encode (c :: s) = utf8 c ++ encode s := List.flatMap_cons
      rw [hcons, decodeUtf8_utf8 (h c List.mem_cons_self),
        ih fun d hd => h d (List.mem_cons_of_mem c hd)]
      rfl

theorem lt_of_mem_utf8 {c : CodePoint} {b : Nat} (h : b ∈ utf8 c) : b < 256 := by
  have hlt := c.isLt
  unfold utf8 at h
  split at h
  · simp only [List.mem_singleton] at h
    omega
  · split at h
    · simp only [List.mem_cons, List.not_mem_nil, or_false] at h
      omega
    · split at h
      · simp only [List.mem_cons, List.not_mem_nil, or_false] at h
        omega
      · simp only [List.mem_cons, List.not_mem_nil, or_false] at h
        omega

/-! ### Quoting -/

/-- Quoting leaves a byte alone: a letter, a digit, or one of `_`, `.`, `-` and
    `~`. -/
def Unreserved (b : Nat) : Prop :=
  (0x30 ≤ b ∧ b < 0x3A) ∨ (0x41 ≤ b ∧ b < 0x5B) ∨ (0x61 ≤ b ∧ b < 0x7B) ∨
    b ∈ [0x5F, 0x2E, 0x2D, 0x7E]

instance (b : Nat) : Decidable (Unreserved b) :=
  inferInstanceAs (Decidable (_ ∨ _))

/-- A byte below 128 as the character it is. -/
def ofByte (b : Nat) : CodePoint :=
  Fin.ofNat 0x110000 b

/-- The hexadecimal digit of a number below 16, in upper case. -/
def hexDigit (n : Nat) : CodePoint :=
  ofByte (if n < 10 then 0x30 + n else 0x37 + n)

/-- The number a hexadecimal digit stands for, in either case. -/
def hexValue (c : CodePoint) : Option Nat :=
  if 0x30 ≤ c.val ∧ c.val < 0x3A then some (c.val - 0x30)
  else if 0x41 ≤ c.val ∧ c.val < 0x47 then some (c.val - 0x37)
  else if 0x61 ≤ c.val ∧ c.val < 0x67 then some (c.val - 0x57)
  else none

def percent : CodePoint :=
  ofChar '%'

/-- A byte as quoting writes it. -/
def quoteByte (b : Nat) : Str :=
  if Unreserved b then [ofByte b] else [percent, hexDigit (b / 16), hexDigit (b % 16)]

/-- A text quoted to stand in a path, with nothing safe but what always is. A
    surrogate has no bytes, and quoting raises. -/
def quote (s : Str) : Option Str :=
  if Scalars s then some ((encode s).flatMap quoteByte) else none

/-- The byte a percent sign stands for with the two characters after it. -/
def escaped (hi lo : CodePoint) : Option Nat :=
  match hexValue hi, hexValue lo with
  | some x, some y => some (x * 16 + y)
  | _, _ => none

/-- The bytes a quoted text stands for: a percent sign with two hexadecimal
    digits is one, and every other character its own. -/
def percentDecode : Str → List Nat
  | [] => []
  | c :: rest =>
    if c = percent then
      match rest with
      | [] => [0x25]
      | [d] => 0x25 :: utf8 d
      | hi :: lo :: rest' =>
        match escaped hi lo with
        | some b => b :: percentDecode rest'
        | none => 0x25 :: percentDecode (hi :: lo :: rest')
    else utf8 c ++ percentDecode rest

/-- A path as it is read, where its bytes are UTF-8. -/
def unquote (s : Str) : Option Str :=
  decodeUtf8 (percentDecode s)

theorem hexValue_hexDigit {n : Nat} (h : n < 16) : hexValue (hexDigit n) = some n := by
  have hall : ∀ n : Fin 16, hexValue (hexDigit n.val) = some n.val := by decide
  exact hall ⟨n, h⟩

theorem val_ofByte {b : Nat} (h : b < 256) : (ofByte b).val = b :=
  Nat.mod_eq_of_lt (by omega)

theorem percentDecode_cons {c : CodePoint} (h : c ≠ percent) (rest : Str) :
    percentDecode (c :: rest) = utf8 c ++ percentDecode rest := by
  rw [percentDecode.eq_def]
  simp only [if_neg h]

/-- A quoted byte is read. -/
theorem percentDecode_quoteByte {b : Nat} (h : b < 256) (rest : Str) :
    percentDecode (quoteByte b ++ rest) = b :: percentDecode rest := by
  have hval := val_ofByte h
  unfold quoteByte
  split
  · rename_i hunreserved
    simp only [Unreserved, List.mem_cons, List.not_mem_nil, or_false] at hunreserved
    -- An unreserved byte stands for itself, and is not the sign of an escape.
    have hne : ofByte b ≠ percent := by
      intro heq
      have hpercent : (ofByte b).val = 0x25 := congrArg Fin.val heq
      omega
    have hutf8 : utf8 (ofByte b) = [b] := by
      rw [utf8, hval, if_pos (by omega)]
    rw [List.cons_append, List.nil_append, percentDecode_cons hne, hutf8]
    rfl
  · rw [List.cons_append, List.cons_append, List.cons_append, List.nil_append, percentDecode,
      if_pos rfl]
    have hhi : hexValue (hexDigit (b / 16)) = some (b / 16) := hexValue_hexDigit (by omega)
    have hlo : hexValue (hexDigit (b % 16)) = some (b % 16) := hexValue_hexDigit (by omega)
    simp only [escaped, hhi, hlo, Nat.div_add_mod']

theorem percentDecode_quoteBytes {bytes : List Nat} (h : ∀ b ∈ bytes, b < 256) :
    percentDecode (bytes.flatMap quoteByte) = bytes := by
  induction bytes with
  | nil => rfl
  | cons b bytes ih =>
      rw [List.flatMap_cons, percentDecode_quoteByte (h b List.mem_cons_self),
        ih fun c hc => h c (List.mem_cons_of_mem b hc)]

/-- A text without a percent sign stands for its own bytes. -/
theorem percentDecode_append {s : Str} (h : percent ∉ s) (t : Str) :
    percentDecode (s ++ t) = encode s ++ percentDecode t := by
  induction s with
  | nil => rfl
  | cons c s ih =>
      have hc : c ≠ percent := fun heq => h (heq ▸ List.mem_cons_self)
      have hcons : encode (c :: s) = utf8 c ++ encode s := List.flatMap_cons
      rw [List.cons_append, percentDecode_cons hc,
        ih fun hs => h (List.mem_cons_of_mem c hs), hcons, List.append_assoc]

theorem percentDecode_quote {s quoted : Str} (h : quote s = some quoted) :
    percentDecode quoted = encode s := by
  unfold quote at h
  split at h
  · cases h
    refine percentDecode_quoteBytes fun b hb => ?_
    rcases List.mem_flatMap.mp hb with ⟨c, _, hc⟩
    exact lt_of_mem_utf8 hc
  · cases h

/-- Quoting raises exactly where there are no bytes. -/
theorem quote_isSome {s : Str} : (quote s).isSome ↔ Scalars s := by
  unfold quote
  split
  · rename_i h
    exact iff_of_true rfl h
  · rename_i h
    exact iff_of_false Bool.false_ne_true h

/-- What was quoted after a plain text is read as it was. -/
theorem unquote_append {s t quoted : Str} (hs : Scalars s) (hpercent : percent ∉ s)
    (h : quote t = some quoted) : unquote (s ++ quoted) = some (s ++ t) := by
  have ht : Scalars t := quote_isSome.mp (by rw [h]; rfl)
  rw [unquote, percentDecode_append hpercent, percentDecode_quote h, encode, encode,
    ← List.flatMap_append]
  refine decodeUtf8_encode fun c hc => ?_
  rcases List.mem_append.mp hc with hc | hc
  · exact hs c hc
  · exact ht c hc

/-- A text without a percent sign is read as it is. -/
theorem unquote_of_plain {s : Str} (hs : Scalars s) (hpercent : percent ∉ s) :
    unquote s = some s := by
  have hempty : quote [] = some [] := by decide
  have hread := unquote_append hs hpercent hempty
  rwa [List.append_nil] at hread

/-- What quoting leaves alone is a scalar, and one byte. -/
theorem quoteByte_of_unreserved {c : CodePoint} (h : Unreserved c.val) :
    Scalar c ∧ (utf8 c).flatMap quoteByte = [c] := by
  have hlt : c.val < 0x80 := by
    simp only [Unreserved, List.mem_cons, List.not_mem_nil, or_false] at h
    omega
  refine ⟨fun hsurrogate => by omega, ?_⟩
  have hbyte : ofByte c.val = c := Fin.ext (val_ofByte (by omega))
  rw [utf8, if_pos hlt, List.flatMap_cons, List.flatMap_nil, List.append_nil, quoteByte, if_pos h,
    hbyte]

/-- A text that quoting leaves alone. -/
theorem quote_of_unreserved {s : Str} (h : ∀ c ∈ s, Unreserved c.val) : quote s = some s := by
  have hbytes : (encode s).flatMap quoteByte = s := by
    induction s with
    | nil => rfl
    | cons c s ih =>
        rw [encode, List.flatMap_cons, List.flatMap_append,
          (quoteByte_of_unreserved (h c List.mem_cons_self)).2, ← encode,
          ih fun d hd => h d (List.mem_cons_of_mem c hd)]
        rfl
  have hscalars : Scalars s := fun c hc => (quoteByte_of_unreserved (h c hc)).1
  rw [quote, if_pos hscalars, hbytes]

/-- Texts are told apart by what they are quoted as. -/
theorem quote_inj {s t quoted : Str} (hs : quote s = some quoted) (ht : quote t = some quoted) :
    s = t := by
  have hread := unquote_append (s := []) nofun List.not_mem_nil hs
  rw [unquote_append (s := []) nofun List.not_mem_nil ht, Option.some.injEq] at hread
  exact hread.symm

/-! ### Segments -/

def slash : CodePoint :=
  ofChar '/'

def dot : Str :=
  text "."

def dots : Str :=
  text ".."

/-- The segments of a path after its first slash. -/
def segments (path : Str) : List Str :=
  path.splitOn slash

/-- Segments without the dot segments, given those before them: one that is a
    dot goes, one that is two goes with the segment before it, and a last one
    leaves an empty segment. -/
def removeDots (before : List Str) : List Str → List Str
  | [] => before
  | [s] =>
    if s = dot then before ++ [[]] else if s = dots then before.dropLast ++ [[]] else before ++ [s]
  | s :: t :: rest =>
    if s = dot then removeDots before (t :: rest)
    else if s = dots then removeDots before.dropLast (t :: rest)
    else removeDots (before ++ [s]) (t :: rest)

/-- An absolute path without its dot segments. -/
def removeDotSegments : Str → Str
  | [] => []
  | root :: path => root :: [slash].intercalate (removeDots [] (segments path))

/-- No quoted text has a slash in it. -/
theorem slash_notMem_quote {s quoted : Str} (h : quote s = some quoted) : slash ∉ quoted := by
  have hdigit : ∀ n : Fin 16, hexDigit n.val ≠ slash := by decide
  unfold quote at h
  split at h
  · cases h
    intro hmem
    -- A slash would be a byte that stands for itself, or one of an escape.
    rcases List.mem_flatMap.mp hmem with ⟨b, hb, hc⟩
    rcases List.mem_flatMap.mp hb with ⟨c, _, hbyte⟩
    have hlt := lt_of_mem_utf8 hbyte
    unfold quoteByte at hc
    split at hc
    · rename_i hunreserved
      have hval : b = 0x2F := by
        rw [← val_ofByte hlt, ← List.mem_singleton.mp hc]
        rfl
      subst hval
      exact absurd hunreserved (by decide)
    · simp only [List.mem_cons, List.not_mem_nil, or_false] at hc
      rcases hc with hc | hc | hc
      · exact absurd hc (by decide)
      · exact hdigit ⟨b / 16, by omega⟩ hc.symm
      · exact hdigit ⟨b % 16, by omega⟩ hc.symm
  · cases h

/-- A text is its own segment exactly if it has no slash. -/
theorem segments_eq_singleton {s t : Str} : segments s = [t] ↔ slash ∉ s ∧ t = s := by
  constructor
  · intro h
    have hslash : slash ∉ s := by
      intro hmem
      rcases List.append_of_mem hmem with ⟨a, b, rfl⟩
      have hlength := congrArg List.length h
      rw [segments, List.splitOn_append_cons_self, List.length_append, List.length_singleton]
        at hlength
      have ha := List.length_pos_of_ne_nil (List.splitOn_ne_nil slash a)
      have hb := List.length_pos_of_ne_nil (List.splitOn_ne_nil slash b)
      omega
    rw [segments, List.splitOn_eq_singleton hslash] at h
    exact ⟨hslash, (List.cons.inj h).1.symm⟩
  · rintro ⟨hslash, rfl⟩
    exact List.splitOn_eq_singleton hslash

/-- Segments that are no dot segments stay. -/
theorem removeDots_of_plain {before segs : List Str} (h : ∀ s ∈ segs, s ≠ dot ∧ s ≠ dots) :
    removeDots before segs = before ++ segs := by
  induction segs generalizing before with
  | nil => rw [removeDots, List.append_nil]
  | cons s segs ih =>
      rcases h s List.mem_cons_self with ⟨hdot, hdots⟩
      cases segs with
      | nil => rw [removeDots, if_neg hdot, if_neg hdots]
      | cons t rest =>
          rw [removeDots, if_neg hdot, if_neg hdots,
            ih fun u hu => h u (List.mem_cons_of_mem s hu), List.append_assoc, List.cons_append,
            List.nil_append]

/-- A path without dot segments is sent as it is. -/
theorem removeDotSegments_of_plain {root : CodePoint} {path : Str}
    (h : ∀ s ∈ segments path, s ≠ dot ∧ s ≠ dots) :
    removeDotSegments (root :: path) = root :: path := by
  rw [removeDotSegments, removeDots_of_plain h, List.nil_append, segments,
    List.intercalate_splitOn]

/-! ### Templates -/

/-- A segment of a template: a text, or a hole. -/
inductive Part where
  | lit (s : Str)
  | hole
  deriving DecidableEq

/-- What the holes of a template take of a path's segments, where the template
    is one of the path: a hole takes a segment that is not empty. -/
def Part.matchAll : List Part → List Str → Option (List Str)
  | [], [] => some []
  | .lit s :: parts, t :: segs => if s = t then matchAll parts segs else none
  | .hole :: parts, t :: segs =>
    if t = [] then none else (matchAll parts segs).map (t :: ·)
  | _, _ => none

end Uri

end Theory
