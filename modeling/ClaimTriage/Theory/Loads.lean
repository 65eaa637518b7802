import ClaimTriage.Theory.Value
import ClaimTriage.Theory.Decimal
import ClaimTriage.Theory.Except

/-!
# Reading JSON

The reader that takes a text apart from its front. It takes a little more than
the grammar says (`NaN` and the infinities are numbers to it), refuses the rest
by saying what it expected and where, and gives up on an integer with too many
digits and on brackets that stand too deep.

Which number a text with a fraction or an exponent is, and what is written of it,
is a parameter, since the machine's numbers are not those of the texts.

What is written in any layout is read back (`loads_dumps`): a value's text is
recognised off the front of whatever follows it (`reads`).

## Main definitions

* `Failure`: Why a text is not read.
* `character`, `scanString`: A string, character by character.
* `number`: The longest number a text begins with.
* `scan`: The value a text begins with.
* `loads`: The value a text is.
* `located`: What is said of a text that is no JSON.
* `Sound`: An atom that is read as it is written.

## Theorems

* `scanString_escaped`: A string is read off the front of what follows it.
* `number_eq`: A number is.
* `reads`: A value is.
* `loads_dumps`: A text is read as the value it was written of.
* `dumps_inj`: And so determines it.
-/

namespace Theory

namespace Value

open Text Numeral Json

/-- Why a text is not read: it is no JSON, what is said of it and what is left of it
    there; it holds an integer that is not converted; or it goes too deep. -/
inductive Failure where
  | malformed (what rest : Str)
  | overlong
  | nested

/-- The text after the blanks it begins with. -/
def blanks (s : Str) : Str :=
  s.dropWhile (IsBlank ·)

/-! ### Strings -/

/-- The number a hexadecimal digit is. -/
def hexDigit (c : CodePoint) : Option Nat :=
  if IsDigit c then some (c.val - 0x30)
  else if 0x61 ≤ c.val ∧ c.val ≤ 0x66 then some (c.val - 0x57)
  else if 0x41 ≤ c.val ∧ c.val ≤ 0x46 then some (c.val - 0x37)
  else none

/-- The code unit four hexadecimal digits are, where something follows them. -/
def unit : Str → Option (CodePoint × Str)
  | a :: b :: c :: d :: e :: rest => do
      let a ← hexDigit a
      let b ← hexDigit b
      let c ← hexDigit c
      let d ← hexDigit d
      return (Fin.ofNat 0x110000 (((a * 16 + b) * 16 + c) * 16 + d), e :: rest)
  | _ => none

/-- A string that does not end. -/
def unterminated (opened : Str) : Failure :=
  .malformed (text "Unterminated string starting at") opened

/-- An escape that is none. -/
def noUnit (rest : Str) : Failure :=
  .malformed (text "Invalid \\uXXXX escape") rest

/-- The low surrogate that is escaped right behind a high one. -/
def follower : Str → Except Failure (Option (CodePoint × Str))
  | mark :: letter :: rest =>
      if mark = backslash ∧ letter = 0x75 ∧ 5 ≤ rest.length then
        match unit rest with
        | none => .error (noUnit (letter :: rest))
        | some (low, after) => .ok (if IsLow low then some (low, after) else none)
      else .ok none
  | _ => .ok none

/-- What the letter of an escape of two characters stands for. -/
def letters : List (CodePoint × CodePoint) :=
  [(0x22, 0x22), (0x5C, 0x5C), (0x2F, 0x2F), (0x62, 0x08), (0x66, 0x0C), (0x6E, 0x0A),
    (0x72, 0x0D), (0x74, 0x09)]

/-- The next character of a string, or none at the mark that ends it. -/
def character (opened : Str) : Str → Except Failure (Option CodePoint × Str)
  | [] => .error (unterminated opened)
  | c :: rest =>
      if c = quote then .ok (none, rest)
      else if c = backslash then
        match rest with
        | [] => .error (unterminated opened)
        | letter :: after =>
            -- A four-digit escape may be the first half of a character.
            if letter = 0x75 then
              match unit after with
              | none => .error (noUnit rest)
              | some (high, after) =>
                  if IsHigh high then do
                    match ← follower after with
                    | some (low, after) => return (some (combine high low), after)
                    | none => return (some high, after)
                  else .ok (some high, after)
            else
              match letters.lookup letter with
              | some d => .ok (some d, after)
              | none => .error (.malformed (text "Invalid \\escape") (c :: rest))
      else if c.val < 0x20 then
        .error (.malformed (text "Invalid control character at") (c :: rest))
      else .ok (some c, rest)

/-- A string up to the mark that ends it. -/
def scanString (opened : Str) : Nat → Str → Except Failure (Str × Str)
  | 0, _ => .error (unterminated opened)
  | fuel + 1, s => do
      match ← character opened s with
      | (none, rest) => return ([], rest)
      | (some c, rest) =>
          let (t, rest) ← scanString opened fuel rest
          return (c :: t, rest)

/-! ### Numbers -/

/-- The digits before a point: zero, or as many as there are. -/
def wholeOf : Str → Option (Str × Str)
  | [] => none
  | c :: rest =>
      if c = 0x30 then some ([c], rest)
      else if IsDigit c then some (c :: rest.takeWhile (IsDigit ·), rest.dropWhile (IsDigit ·))
      else none

/-- A point and the digits after it, if there is one. -/
def placesOf : Str → Str × Str
  | c :: rest =>
      if c = 0x2E ∧ rest.takeWhile (IsDigit ·) ≠ [] then
        (c :: rest.takeWhile (IsDigit ·), rest.dropWhile (IsDigit ·))
      else ([], c :: rest)
  | [] => ([], [])

/-- A sign, if there is one. -/
def markOf : Str → Str
  | [] => []
  | c :: _ => if c = 0x2D ∨ c = 0x2B then [c] else []

/-- An exponent, if there is one. -/
def powerOf : Str → Str × Str
  | c :: rest =>
      let digits := rest.drop (markOf rest).length
      if (c = 0x65 ∨ c = 0x45) ∧ digits.takeWhile (IsDigit ·) ≠ [] then
        (c :: (markOf rest ++ digits.takeWhile (IsDigit ·)), digits.dropWhile (IsDigit ·))
      else ([], c :: rest)
  | [] => ([], [])

/-- The sign of a number below zero, if it is one. -/
def minusOf (s : Str) : Str :=
  if s.head? = some 0x2D then [0x2D] else []

/-- The longest number a text begins with, and whether it is no integer. -/
def number (s : Str) : Option (Bool × Str × Str) := do
  let (whole, rest) ← wholeOf (s.drop (minusOf s).length)
  let places := placesOf rest
  let power := powerOf places.2
  return (decide (places.1 ≠ [] ∨ power.1 ≠ []),
    minusOf s ++ (whole ++ (places.1 ++ power.1)), power.2)

/-- What is written out in letters. -/
def literals : List (Str × Value) :=
  [(text "null", null), (text "true", bool true), (text "false", bool false),
    (text "NaN", float (text "nan")), (text "Infinity", float (text "inf")),
    (text "-Infinity", float (text "-inf"))]

/-- The value a text begins with in letters. -/
def literal (s : Str) : Option (Value × Str) :=
  (literals.find? fun p => p.1 <+: s).map fun p => (p.2, s.drop p.1.length)

/-! ### Values -/

section Scan

/-- A value is missing. -/
def noValue (rest : Str) : Failure :=
  .malformed (text "Expecting value") rest

/-- A comma is missing. -/
def noComma (rest : Str) : Failure :=
  .malformed (text "Expecting ',' delimiter") rest

/-- A key is missing. -/
def noKey (rest : Str) : Failure :=
  .malformed (text "Expecting property name enclosed in double quotes") rest

/-- A colon is missing. -/
def noColon (rest : Str) : Failure :=
  .malformed (text "Expecting ':' delimiter") rest

/-- There is a comma and nothing after it. -/
def trailing (what : Str) (rest : Str) : Failure :=
  .malformed (text "Illegal trailing comma before end of " ++ what) rest

variable (read : Str → Str)

/-- The number a text begins with. -/
def scanNumber (s : Str) : Except Failure (Value × Str) :=
  match number s with
  | none => .error (noValue s)
  | some (true, token, rest) => .ok (float (read token), rest)
  | some (false, token, rest) =>
      if maxStrDigits < (token.drop (minusOf token).length).length then .error .overlong
      else .ok (int (Decimal.signedValue token), rest)

/-- A key and the text of its value. -/
def scanKey (s : Str) : Except Failure (Str × Str) :=
  match s with
  | [] => .error (noKey [])
  | c :: rest =>
      if c = quote then do
        let (key, rest) ← scanString s (rest.length + 1) rest
        match blanks rest with
        | [] => .error (noColon [])
        | d :: after => if d = 0x3A then .ok (key, blanks after) else .error (noColon (d :: after))
      else .error (noKey s)

/-- Whether another item stands after one, and what is left: that item and what follows
    it, or what follows the bracket. -/
def scanNext (closing : CodePoint) (what : Str) (s : Str) : Except Failure (Bool × Str) :=
  match blanks s with
  | [] => .error (noComma [])
  | c :: rest =>
      if c = closing then .ok (false, rest)
      else if c = 0x2C then
        if (blanks rest).head? = some closing then .error (trailing what (c :: rest))
        else .ok (true, blanks rest)
      else .error (noComma (c :: rest))

mutual

/-- The value a text begins with, and what is left of the text. -/
def scan : Nat → Nat → Str → Except Failure (Value × Str)
  | 0, _, s => .error (noValue s)
  | _, _, [] => .error (noValue [])
  | fuel + 1, frames, c :: rest =>
      if c = quote then do
        let (t, after) ← scanString (c :: rest) (rest.length + 1) rest
        return (str t, after)
      else if c = 0x7B then
        -- A bracket takes one frame of the interpreter's.
        match frames with
        | 0 => .error .nested
        | frames + 1 =>
            if (blanks rest).head? = some 0x7D then .ok (obj [], (blanks rest).tail)
            else do
              let (fs, after) ← scanFields fuel frames (blanks rest)
              -- Of two values under one key the last one is kept.
              return (obj (Dict.ofList fs), after)
      else if c = 0x5B then
        match frames with
        | 0 => .error .nested
        | frames + 1 =>
            if (blanks rest).head? = some 0x5D then .ok (arr [], (blanks rest).tail)
            else do
              let (xs, after) ← scanItems fuel frames (blanks rest)
              return (arr xs, after)
      else
        match literal (c :: rest) with
        | some found => .ok found
        | none => scanNumber read (c :: rest)

/-- The items up to a closing bracket, the first of which the text begins with. -/
def scanItems : Nat → Nat → Str → Except Failure (List Value × Str)
  | 0, _, s => .error (noValue s)
  | fuel + 1, frames, s => do
      let (x, s) ← scan fuel frames s
      match ← scanNext 0x5D (text "array") s with
      | (false, after) => return ([x], after)
      | (true, next) =>
          let (xs, after) ← scanItems fuel frames next
          return (x :: xs, after)

/-- The fields up to a closing brace, the first of which the text begins with. -/
def scanFields : Nat → Nat → Str → Except Failure (List (Str × Value) × Str)
  | 0, _, s => .error (noValue s)
  | fuel + 1, frames, s => do
      let (key, s) ← scanKey s
      let (v, s) ← scan fuel frames s
      match ← scanNext 0x7D (text "object") s with
      | (false, after) => return ([(key, v)], after)
      | (true, next) =>
          let (fs, after) ← scanFields fuel frames next
          return ((key, v) :: fs, after)

end

/-- The value a text is. A step is taken at most twice for each of its characters. -/
def loads (frames : Nat) (s : Str) : Except Failure Value :=
  if s.head? = some 0xFEFF then
    .error (.malformed (text "Unexpected UTF-8 BOM (decode using utf-8-sig)") s)
  else do
    let (v, rest) ← scan read (2 * s.length + 2) frames (blanks s)
    if blanks rest = [] then return v
    else .error (.malformed (text "Extra data") (blanks rest))

end Scan

/-- What is said of a text that is no JSON, with the line, the column and the place. -/
def located (s what rest : Str) : Str :=
  let before := s.take (s.length - rest.length)
  what ++ text ": line " ++ decimal (before.count 0x0A + 1) ++ text " column " ++
    decimal ((before.reverse.takeWhile (· ≠ 0x0A)).length + 1) ++ text " (char " ++
    decimal before.length ++ text ")"

/-! ### What is written is read -/

theorem blanks_append {ws s : Str} (hws : ∀ c ∈ ws, IsBlank c) (hs : ∀ c ∈ s.head?, ¬ IsBlank c) :
    blanks (ws ++ s) = s := by
  unfold blanks
  rw [List.dropWhile_append_of_pos fun c hc => decide_eq_true (hws c hc)]
  cases s with
  | nil => rfl
  | cons c s => exact List.dropWhile_cons_of_neg (by simpa using hs c rfl)

theorem blanks_cons {c : CodePoint} {s : Str} (h : ¬ IsBlank c) : blanks (c :: s) = c :: s :=
  List.dropWhile_cons_of_neg (by simpa using h)

/-! #### Strings -/

theorem hexDigit_digit {d : Nat} (h : d < 16) : hexDigit (digit d) = some d := by
  have hall : ∀ d < 16, hexDigit (digit d) = some d := by decide
  exact hall d h

/-- Four hexadecimal digits are read as the unit they are of. -/
theorem unit_fixed {c e : CodePoint} {r : Str} (h : c.val < 0x10000) :
    unit (fixed 16 4 c.val ++ e :: r) = some (c, e :: r) := by
  have hdigits : fixed 16 4 c.val ++ e :: r = digit (c.val / 16 / 16 / 16 % 16) ::
      digit (c.val / 16 / 16 % 16) :: digit (c.val / 16 % 16) :: digit (c.val % 16) :: e :: r := rfl
  have hlt : ∀ n : Nat, n % 16 < 16 := fun n => Nat.mod_lt n (by decide)
  have hvalue : ((c.val / 16 / 16 / 16 % 16 * 16 + c.val / 16 / 16 % 16) * 16 +
      c.val / 16 % 16) * 16 + c.val % 16 = c.val := by omega
  rw [hdigits]
  simp only [unit, hexDigit_digit (hlt _), Option.bind_eq_bind, Option.bind_some, hvalue]
  rw [Fin.ofNat_val_eq_self]
  rfl

theorem letters_of_shorts {p : CodePoint × CodePoint} (hp : p ∈ shorts) :
    p.2 ≠ 0x75 ∧ letters.lookup p.2 = some p.1 := by
  have hall : shorts.all (fun p => decide (p.2 ≠ 0x75 ∧ letters.lookup p.2 = some p.1)) := by
    decide
  exact of_decide_eq_true (List.all_eq_true.mp hall p hp)

/-- A character is read off the front of what follows it. -/
theorem character_escape (opened : Str) (c e : CodePoint) (r : Str) :
    character opened (escape c ++ e :: r) = .ok (some c, e :: r) := by
  unfold escape
  cases hlookup : shorts.lookup c with
  | some letter =>
      have hletter := letters_of_shorts (shorts_lookup_mem hlookup)
      simp only [List.cons_append, List.nil_append, character]
      rw [if_neg (by decide), if_pos trivial, if_neg hletter.1]
      simp only [hletter.2]
  -- A control character is an escape of four digits, and no surrogate.
  | none =>
      have hmarks := ne_of_shorts_none hlookup
      by_cases hcontrol : c.val < 0x20
      · have hnot : ¬ IsHigh c := by
          unfold IsHigh
          omega
        simp only [hcontrol, if_true, List.cons_append, character]
        rw [if_neg (by decide), unit_fixed (by omega)]
        simp only [hnot, if_false]
      · -- Any other character stands for itself.
        simp only [hcontrol, if_false, List.cons_append, List.nil_append, character]
        rw [if_neg hmarks.1, if_neg hmarks.2]

/-- A string is read off the front of what follows it. -/
theorem scanString_escaped (opened : Str) {s : Str} (r : Str) {fuel : Nat} (h : s.length < fuel) :
    scanString opened fuel (s.flatMap escape ++ quote :: r) = .ok (s, r) := by
  induction s generalizing fuel with
  | nil =>
      rcases Nat.exists_eq_add_of_lt h with ⟨k, rfl⟩
      simp only [List.flatMap_nil, List.nil_append, scanString, character, if_true]
      rfl
  | cons c s ih =>
      rw [List.length_cons] at h
      rcases Nat.exists_eq_add_of_lt h with ⟨k, rfl⟩
      -- What follows a character is another one's escape, or the closing quote.
      have hnext : ∃ e t, s.flatMap escape ++ quote :: r = e :: t :=
        List.exists_cons_of_ne_nil (List.append_ne_nil_of_right_ne_nil _ (List.cons_ne_nil _ _))
      rcases hnext with ⟨e, t, hnext⟩
      have hlonger : s.length < s.length + 1 + k := by
        omega
      have hrest := ih hlonger
      rw [List.flatMap_cons, List.append_assoc, hnext, scanString, character_escape]
      rw [hnext] at hrest
      simp only [bind, Except.bind, hrest]
      rfl

/-! #### Numbers -/

/-- What follows is no part of a number: a blank, a comma or a closing bracket, or
    nothing. -/
def Ended (r : Str) : Prop :=
  ∀ c ∈ r.head?, IsBlank c ∨ c ∈ ([0x2C, 0x5D, 0x7D] : Str)

theorem not_of_ended {c : CodePoint} (h : IsBlank c ∨ c ∈ ([0x2C, 0x5D, 0x7D] : Str)) :
    ¬ IsDigit c ∧ c ≠ 0x2E ∧ c ≠ 0x65 ∧ c ≠ 0x45 := by
  have hall : ∀ k ∈ [0x20, 0x09, 0x0A, 0x0D, 0x2C, 0x5D, 0x7D],
      ¬ (0x30 ≤ k ∧ k ≤ 0x39) ∧ k ≠ 0x2E ∧ k ≠ 0x65 ∧ k ≠ 0x45 := by decide
  have hval : c.val ∈ [0x20, 0x09, 0x0A, 0x0D, 0x2C, 0x5D, 0x7D] := by
    rcases h with h | h
    · exact List.mem_append_left [0x2C, 0x5D, 0x7D] h
    · exact List.mem_append_right [0x20, 0x09, 0x0A, 0x0D] (List.mem_map_of_mem (f := Fin.val) h)
  have hnot := hall _ hval
  exact ⟨hnot.1, fun h => hnot.2.1 (congrArg Fin.val h), fun h => hnot.2.2.1 (congrArg Fin.val h),
    fun h => hnot.2.2.2 (congrArg Fin.val h)⟩

/-- Digits are taken up to what is none. -/
theorem digits_append {s r : Str} (hs : ∀ c ∈ s, IsDigit c) (hr : ∀ c ∈ r.head?, ¬ IsDigit c) :
    (s ++ r).takeWhile (IsDigit ·) = s ∧ (s ++ r).dropWhile (IsDigit ·) = r := by
  have hall : ∀ c ∈ s, decide (IsDigit c) = true := fun c hc => decide_eq_true (hs c hc)
  rw [List.takeWhile_append_of_pos hall, List.dropWhile_append_of_pos hall]
  cases r with
  | nil => exact ⟨List.append_nil s, rfl⟩
  | cons c r =>
      have hc : ¬ decide (IsDigit c) = true := by simpa using hr c rfl
      have htaken : (c :: r).takeWhile (IsDigit ·) = [] := List.takeWhile_cons_of_neg hc
      exact ⟨by rw [htaken, List.append_nil], List.dropWhile_cons_of_neg hc⟩

theorem wholeOf_append {whole r : Str} (h : IsWhole whole) (hr : ∀ c ∈ r.head?, ¬ IsDigit c) :
    wholeOf (whole ++ r) = some (whole, r) := by
  rcases h with rfl | ⟨⟨hne, hdigits⟩, hzero⟩
  · rfl
  · rcases List.exists_cons_of_ne_nil hne with ⟨c, rest, rfl⟩
    rw [List.forall_mem_cons] at hdigits
    have hc : c ≠ 0x30 := fun heq => hzero (by rw [heq]; rfl)
    have hrest := digits_append hdigits.2 hr
    rw [List.cons_append]
    simp only [wholeOf, if_neg hc, if_pos hdigits.1, hrest.1, hrest.2]

theorem placesOf_append {places r : Str} (h : IsPlaces places)
    (hr : ∀ c ∈ r.head?, ¬ IsDigit c ∧ c ≠ 0x2E) : placesOf (places ++ r) = (places, r) := by
  rcases h with rfl | ⟨digits, ⟨hne, hdigits⟩, rfl⟩
  · cases r with
    | nil => rfl
    | cons c r => exact if_neg fun h => (hr c rfl).2 h.1
  · have hrest := digits_append hdigits fun c hc => (hr c hc).1
    rw [List.cons_append]
    simp only [placesOf, hrest.1, hrest.2, ne_eq, hne, not_false_eq_true, and_self, if_true]

theorem powerOf_append {power r : Str} (h : IsPower power) (hr : Ended r) :
    powerOf (power ++ r) = (power, r) := by
  rcases h with rfl | ⟨letter, mark, digits, hletter, hmark, ⟨hne, hdigits⟩, rfl⟩
  · cases r with
    -- What follows the number begins no power.
    | nil => rfl
    | cons c r =>
        have hc := not_of_ended (hr c rfl)
        exact if_neg fun h => h.1.elim hc.2.2.1 hc.2.2.2
  · have hrest := digits_append hdigits fun c hc => (not_of_ended (hr c hc)).1
    -- Without a sign the digits begin at once.
    have hmarkOf : markOf (mark ++ (digits ++ r)) = mark := by
      rcases hmark with rfl | rfl | rfl
      · rcases List.exists_cons_of_ne_nil hne with ⟨d, ds, rfl⟩
        have hd : IsDigit d := hdigits d List.mem_cons_self
        refine if_neg ?_
        rintro (rfl | rfl) <;> exact absurd hd (by decide)
      · rfl
      · rfl
    rw [List.cons_append, List.append_assoc]
    simp only [powerOf, hmarkOf, List.drop_left, hrest.1, hrest.2, hletter, ne_eq, hne,
      not_false_eq_true, and_self, if_true]

theorem head_isWhole {whole t : Str} (h : IsWhole whole) :
    ∃ c rest, whole ++ t = c :: rest ∧ IsDigit c := by
  rcases h with rfl | ⟨⟨hne, hdigits⟩, _⟩
  · exact ⟨0x30, t, rfl, by decide⟩
  · rcases List.exists_cons_of_ne_nil hne with ⟨c, rest, rfl⟩
    exact ⟨c, rest ++ t, rfl, hdigits c List.mem_cons_self⟩

/-- A number is read off the front of what follows it. -/
theorem number_eq {sign whole places power r : Str} (hsign : sign = [] ∨ sign = [0x2D])
    (hwhole : IsWhole whole) (hplaces : IsPlaces places) (hpower : IsPower power)
    (hr : Ended r) :
    number (sign ++ (whole ++ (places ++ power)) ++ r) =
      some (decide (places ≠ [] ∨ power ≠ []), sign ++ (whole ++ (places ++ power)), r) := by
  -- Behind the places comes a power or the end, and neither begins with a digit.
  have hafter : ∀ c ∈ (power ++ r).head?, ¬ IsDigit c ∧ c ≠ 0x2E := by
    rcases hpower with rfl | ⟨letter, mark, digits, hletter, _, _, rfl⟩
    · exact fun c hc => ⟨(not_of_ended (hr c hc)).1, (not_of_ended (hr c hc)).2.1⟩
    · intro c hc
      cases hc
      rcases hletter with rfl | rfl <;> decide
  have hpoint : ∀ c ∈ (places ++ (power ++ r)).head?, ¬ IsDigit c := by
    rcases hplaces with rfl | ⟨digits, _, rfl⟩
    · exact fun c hc => (hafter c hc).1
    · intro c hc
      cases hc
      decide
  -- The sign is read off whether it is there or not.
  have hminus : minusOf (sign ++ (whole ++ (places ++ (power ++ r)))) = sign := by
    rcases hsign with rfl | rfl
    · rcases head_isWhole (t := places ++ (power ++ r)) hwhole with ⟨c, rest, hrest, hc⟩
      rw [List.nil_append, hrest]
      refine if_neg fun h => ?_
      cases h
      exact absurd hc (by decide)
    · rfl
  unfold number
  simp only [List.append_assoc]
  rw [hminus, List.drop_left, wholeOf_append hwhole hpoint]
  simp only [Option.bind_eq_bind, Option.bind_some, placesOf_append hplaces hafter,
    powerOf_append hpower hr]
  rfl

/-- Nothing that is written out in letters is a number. -/
theorem literal_eq_none {sign whole t : Str} (hsign : sign = [] ∨ sign = [0x2D])
    (hwhole : IsWhole whole) : literal (sign ++ (whole ++ t)) = none := by
  have hfirst : ∀ p ∈ literals, ∃ a ∈ p.1.head?, ¬ IsDigit a := by
    simp only [literals, List.forall_mem_cons]
    exact ⟨⟨_, rfl, by decide⟩, ⟨_, rfl, by decide⟩, ⟨_, rfl, by decide⟩, ⟨_, rfl, by decide⟩,
      ⟨_, rfl, by decide⟩, ⟨_, rfl, by decide⟩, List.forall_mem_nil _⟩
  have hsecond : ∀ p ∈ literals, ∃ a ∈ p.1.tail.head?, ¬ IsDigit a := by
    simp only [literals, List.forall_mem_cons]
    exact ⟨⟨_, rfl, by decide⟩, ⟨_, rfl, by decide⟩, ⟨_, rfl, by decide⟩, ⟨_, rfl, by decide⟩,
      ⟨_, rfl, by decide⟩, ⟨_, rfl, by decide⟩, List.forall_mem_nil _⟩
  -- A number begins with a digit, or with a minus before one; no literal does either.
  rcases head_isWhole (t := t) hwhole with ⟨c, rest, hrest, hc⟩
  unfold literal
  rw [hrest, Option.map_eq_none_iff, List.find?_eq_none]
  intro p hp hprefix
  rcases of_decide_eq_true hprefix with ⟨after, hafter⟩
  rcases hsign with rfl | rfl
  · rcases hfirst p hp with ⟨a, ha, hnot⟩
    cases hp1 : p.1 with
    | nil =>
        rw [hp1] at ha
        cases ha
    | cons b bs =>
        rw [hp1] at ha hafter
        cases ha
        exact hnot ((List.cons.inj hafter).1 ▸ hc)
  · rcases hsecond p hp with ⟨a, ha, hnot⟩
    cases hp1 : p.1 with
    | nil =>
        rw [hp1] at ha
        cases ha
    | cons b bs =>
        rw [hp1] at ha hafter
        have htail : bs ++ after = c :: rest := (List.cons.inj hafter).2
        cases bs with
        | nil => cases ha
        | cons d ds =>
            cases ha
            exact hnot ((List.cons.inj htail).1 ▸ hc)

/-- The digits of an integer are those before a point. -/
theorem isWhole_decimal (n : Nat) : IsWhole (decimal n) := by
  rcases Nat.eq_zero_or_pos n with rfl | hn
  · exact Or.inl (by decide)
  · refine Or.inr ⟨⟨decimal_ne_nil n, fun c hc => isDigit_of_mem_decimal hc⟩, ?_⟩
    -- The first digit of a numeral is that of its tenth, down to a single one.
    induction n using Nat.strong_induction_on with
    | _ n ih =>
      rw [decimal_eq]
      split
      · rename_i hlt
        have hall : ∀ d < 10, 0 < d → digit d ≠ 0x30 := by decide
        exact fun h => hall n hlt hn (Option.some.inj h)
      · rw [List.head?_append_of_ne_nil _ (decimal_ne_nil _)]
        exact ih (n / 10) (Nat.div_lt_self hn (by decide)) (by omega)

/-- An integer is the sign and the digits of its text. -/
theorem signed_eq (n : Int) :
    ∃ sign, (sign = [] ∨ sign = [0x2D]) ∧ signed n = sign ++ decimal n.natAbs ∧
      Decimal.signedValue (signed n) = n := by
  cases n with
  | ofNat k =>
      refine ⟨[], Or.inl rfl, rfl, ?_⟩
      rcases exists_cons_decimal k with ⟨c, rest, hc, hdigit⟩
      have hvalue : Decimal.signedValue (decimal k) = value 10 (decimal k) := by
        -- A digit is no sign.
        have hmark : c ≠ 0x2D ∧ c ≠ 0x2B := by
          constructor <;> rintro rfl <;> exact absurd hdigit (by decide)
        rw [hc]
        simp only [Decimal.signedValue, if_neg hmark.1, if_neg hmark.2]
      rw [signed, hvalue, value_decimal]
      rfl
  | negSucc k =>
      refine ⟨[0x2D], Or.inr rfl, rfl, ?_⟩
      change -(Numeral.value 10 (decimal (k + 1)) : Int) = _
      rw [value_decimal, Int.negSucc_eq, Int.natCast_add]
      rfl

/-! #### Values -/

section Written

variable {read : Str → Str} {l : Layout}

/-- A number's text is what is written of the number it is read as. -/
def Stable (read : Str → Str) : Value → Prop
  | float written => IsNumber written ∧ (IsFraction written → read written = written)
  | _ => True

/-- An atom that is read as it is written. -/
def Sound (read : Str → Str) : Value → Prop
  | int n => Convertible n
  | v => Stable read v

/-- What a value's text begins with is neither a blank nor a bracket that closes. -/
def Opens (c : CodePoint) : Prop :=
  ¬ IsBlank c ∧ c.val < 0x7F ∧ c ≠ 0x5D ∧ c ≠ 0x7D

instance (c : CodePoint) : Decidable (Opens c) :=
  inferInstanceAs (Decidable (_ ∧ _ ∧ _ ∧ _))

theorem opens_of_isDigit {c : CodePoint} (h : IsDigit c) : Opens c := by
  have hall : ∀ k < 0x3A, 0x30 ≤ k → k ∉ [0x20, 0x09, 0x0A, 0x0D] ∧ k ≠ 0x5D ∧ k ≠ 0x7D := by
    decide
  unfold IsDigit at h
  have hnot := hall c.val (by omega) h.1
  exact ⟨hnot.1, by omega, fun heq => hnot.2.1 (congrArg Fin.val heq),
    fun heq => hnot.2.2 (congrArg Fin.val heq)⟩

theorem opens_number {sign whole t : Str} (hsign : sign = [] ∨ sign = [0x2D])
    (hwhole : IsWhole whole) : ∃ c rest, sign ++ (whole ++ t) = c :: rest ∧ Opens c := by
  rcases hsign with rfl | rfl
  · rcases head_isWhole (t := t) hwhole with ⟨c, rest, hrest, hc⟩
    exact ⟨c, rest, hrest, opens_of_isDigit hc⟩
  · exact ⟨0x2D, whole ++ t, rfl, by decide⟩

/-- A value's text begins with what opens one. -/
theorem opens_dumps (depth : Nat) {v : Value} (h : ∀ a ∈ atoms v, Sound read a) :
    ∃ c rest, dumps l depth v = c :: rest ∧ Opens c := by
  cases v with
  | null => exact ⟨_, _, rfl, by decide⟩
  | bool b => cases b <;> exact ⟨_, _, rfl, by decide⟩
  | int n =>
      rcases signed_eq n with ⟨sign, hsign, heq, _⟩
      have hopens := opens_number (t := []) hsign (isWhole_decimal n.natAbs)
      rw [List.append_nil, ← heq] at hopens
      exact hopens
  | float written =>
      have hnumber : IsNumber written := (h _ (List.mem_singleton_self _)).1
      rw [dumps]
      -- What is no number is one of three constants, which are literals.
      rcases dumpsFloat_cases hnumber with hconstant | ⟨hfraction, heq⟩
      · have hall : ∀ p ∈ constants, ∃ c rest, p.2 = c :: rest ∧ Opens c := by
          simp only [constants, List.forall_mem_cons]
          exact ⟨⟨_, _, rfl, by decide⟩, ⟨_, _, rfl, by decide⟩, ⟨_, _, rfl, by decide⟩,
            List.forall_mem_nil _⟩
        exact hall _ hconstant
      · rw [heq]
        rcases hfraction with ⟨sign, whole, places, power, rfl, hsign, hwhole, _⟩
        exact opens_number hsign hwhole
  | str s => exact ⟨quote, _, rfl, by decide⟩
  | arr xs =>
      cases xs with
      | nil => exact ⟨0x5B, _, rfl, by decide⟩
      | cons x xs => exact ⟨0x5B, _, by rw [dumps], by decide⟩
  | obj fs =>
      cases fs with
      | nil => exact ⟨0x7B, _, rfl, by decide⟩
      | cons f fs => exact ⟨0x7B, _, by rw [dumps], by decide⟩

theorem scanNext_closing {closing : CodePoint} (hclosing : ¬ IsBlank closing) (what r : Str)
    {ws : Str} (hws : ∀ c ∈ ws, IsBlank c) :
    scanNext closing what (ws ++ closing :: r) = .ok (false, r) := by
  have hblanks : blanks (ws ++ closing :: r) = closing :: r :=
    blanks_append hws fun c hc => by cases hc; exact hclosing
  unfold scanNext
  rw [hblanks]
  exact if_pos rfl

theorem scanNext_item {closing : CodePoint} (hclosing : closing ≠ 0x2C) (what : Str) {ws s : Str}
    (hws : ∀ c ∈ ws, IsBlank c) (hs : ∀ c ∈ s.head?, ¬ IsBlank c ∧ c ≠ closing) :
    scanNext closing what (0x2C :: (ws ++ s)) = .ok (true, s) := by
  have hcomma : blanks (0x2C :: (ws ++ s)) = 0x2C :: (ws ++ s) := blanks_cons (by decide)
  have hblanks : blanks (ws ++ s) = s := blanks_append hws fun c hc => (hs c hc).1
  have hhead : s.head? ≠ some closing := fun h => (hs closing h).2 rfl
  unfold scanNext
  rw [hcomma]
  simp only [hblanks, hclosing.symm, if_false, if_true, hhead]

theorem length_le_escaped (s : Str) : s.length ≤ (s.flatMap escape).length := by
  -- Every character is escaped as one at least.
  have hone : ∀ c, 1 ≤ (escape c).length := by
    intro c
    rw [Nat.one_le_iff_ne_zero, ne_eq, List.length_eq_zero_iff]
    unfold escape
    split
    · exact List.cons_ne_nil _ _
    · split <;> exact List.cons_ne_nil _ _
  induction s with
  | nil => exact Nat.zero_le _
  | cons c s ih =>
      have hc := hone c
      rw [List.flatMap_cons, List.length_append, List.length_cons]
      omega

/-- A string is read off the front of what follows it, whole. -/
theorem scanString_dumpsStr (opened s r : Str) :
    scanString opened ((s.flatMap escape ++ quote :: r).length + 1)
      (s.flatMap escape ++ quote :: r) = .ok (s, r) := by
  have hlength := length_le_escaped s
  exact scanString_escaped opened r (by rw [List.length_append]; omega)

theorem dumpsStr_append (s r : Str) :
    dumpsStr s ++ r = quote :: (s.flatMap escape ++ quote :: r) := by
  unfold dumpsStr
  rw [List.cons_append, List.cons_append, List.append_assoc]
  rfl

theorem scanKey_dumps (key : Str) {ws s : Str} (hws : ∀ c ∈ ws, IsBlank c)
    (hs : ∀ c ∈ s.head?, ¬ IsBlank c) :
    scanKey (dumpsStr key ++ 0x3A :: (ws ++ s)) = .ok (key, s) := by
  have hcolon : blanks (0x3A :: (ws ++ s)) = 0x3A :: (ws ++ s) := blanks_cons (by decide)
  rw [dumpsStr_append]
  simp only [scanKey, if_true, scanString_dumpsStr, bind, Except.bind, hcolon,
    blanks_append hws hs]

/-- What is no string and no bracket is written out in letters, or a number. -/
theorem scan_atom {c : CodePoint} (h : c ≠ quote ∧ c ≠ 0x7B ∧ c ≠ 0x5B) (fuel frames : Nat)
    (rest : Str) : scan read (fuel + 1) frames (c :: rest) =
      match literal (c :: rest) with
      | some found => .ok found
      | none => scanNumber read (c :: rest) :=
  (if_neg h.1).trans ((if_neg h.2.1).trans (if_neg h.2.2))

theorem literal_append {p : Str × Value} (h : p ∈ literals) (r : Str) :
    literal (p.1 ++ r) = some (p.2, r) := by
  have hall : ∀ p ∈ literals, literal (p.1 ++ r) = some (p.2, r) := by
    simp only [literals, List.forall_mem_cons]
    exact ⟨rfl, rfl, rfl, rfl, rfl, rfl, List.forall_mem_nil _⟩
  exact hall p h

theorem scan_literal {p : Str × Value} (h : p ∈ literals) (fuel frames : Nat) (r : Str) :
    scan read (fuel + 1) frames (p.1 ++ r) = .ok (p.2, r) := by
  have hfirst : ∀ p ∈ literals, ∃ c rest, p.1 = c :: rest ∧ c ≠ quote ∧ c ≠ 0x7B ∧ c ≠ 0x5B := by
    simp only [literals, List.forall_mem_cons]
    exact ⟨⟨_, _, rfl, by decide⟩, ⟨_, _, rfl, by decide⟩, ⟨_, _, rfl, by decide⟩,
      ⟨_, _, rfl, by decide⟩, ⟨_, _, rfl, by decide⟩, ⟨_, _, rfl, by decide⟩, List.forall_mem_nil _⟩
  have hliteral := literal_append h r
  rcases hfirst p h with ⟨c, rest, hp, hc⟩
  rw [hp, List.cons_append] at hliteral ⊢
  rw [scan_atom hc, hliteral]

theorem scan_number (read : Str → Str) {sign whole t r : Str} (hsign : sign = [] ∨ sign = [0x2D])
    (hwhole : IsWhole whole) (fuel frames : Nat) :
    scan read (fuel + 1) frames (sign ++ (whole ++ t) ++ r) =
      scanNumber read (sign ++ (whole ++ t) ++ r) := by
  -- No bracket and no quote begins a number.
  have hfirst : ∃ c rest, sign ++ (whole ++ (t ++ r)) = c :: rest ∧
      c ≠ quote ∧ c ≠ 0x7B ∧ c ≠ 0x5B := by
    rcases hsign with rfl | rfl
    · rcases head_isWhole (t := t ++ r) hwhole with ⟨c, rest, hrest, hc⟩
      refine ⟨c, rest, hrest, ?_⟩
      refine ⟨?_, ?_, ?_⟩ <;> rintro rfl <;> exact absurd hc (by decide)
    · exact ⟨0x2D, _, rfl, by decide⟩
  have hliteral := literal_eq_none (t := t ++ r) hsign hwhole
  rw [List.append_assoc, List.append_assoc]
  rcases hfirst with ⟨c, rest, hrest, hc⟩
  rw [hrest] at hliteral ⊢
  rw [scan_atom hc, hliteral]

theorem scan_int {n : Int} (h : Convertible n) (fuel frames : Nat) {r : Str} (hr : Ended r) :
    scan read (fuel + 1) frames (signed n ++ r) = .ok (int n, r) := by
  rcases signed_eq n with ⟨sign, hsign, heq, hvalue⟩
  have hwhole := isWhole_decimal n.natAbs
  have hscan := scan_number read (t := []) (r := r) hsign hwhole fuel frames
  have hnumber := number_eq hsign hwhole (Or.inl rfl) (Or.inl rfl) hr
  have hminus : minusOf (sign ++ decimal n.natAbs) = sign := by
    rcases hsign with rfl | rfl
    · rcases exists_cons_decimal n.natAbs with ⟨c, rest, hc, hdigit⟩
      rw [List.nil_append, hc]
      refine if_neg fun h => ?_
      cases h
      exact absurd hdigit (by decide)
    · rfl
  rw [List.append_nil, List.append_nil, ← heq] at hnumber
  rw [List.append_nil, ← heq] at hscan
  rw [hscan]
  unfold scanNumber
  rw [hnumber]
  simp only [ne_eq, not_true_eq_false, or_self, decide_false]
  rw [heq, hminus, List.drop_left, if_neg (Nat.not_lt.mpr h), ← heq, hvalue]

theorem scan_float {written : Str} (h : Sound read (float written)) (fuel frames : Nat) {r : Str}
    (hr : Ended r) :
    scan read (fuel + 1) frames (dumpsFloat written ++ r) = .ok (float written, r) := by
  rcases dumpsFloat_cases h.1 with hconstant | ⟨hfraction, heq⟩
  · -- The constants are literals under another name.
    have hall : ∀ p ∈ constants, (p.2, float p.1) ∈ literals := by
      simp only [constants, List.forall_mem_cons]
      exact ⟨List.mem_cons_of_mem _ (List.mem_cons_of_mem _ (List.mem_cons_of_mem _
          List.mem_cons_self)),
        List.mem_cons_of_mem _ (List.mem_cons_of_mem _ (List.mem_cons_of_mem _
          (List.mem_cons_of_mem _ List.mem_cons_self))),
        List.mem_cons_of_mem _ (List.mem_cons_of_mem _ (List.mem_cons_of_mem _
          (List.mem_cons_of_mem _ (List.mem_cons_of_mem _ List.mem_cons_self)))),
        List.forall_mem_nil _⟩
    exact scan_literal (hall _ hconstant) fuel frames r
  · have hread := h.2 hfraction
    rw [heq]
    rcases hfraction with ⟨sign, whole, places, power, rfl, hsign, hwhole, hplaces, hpower, hne⟩
    rw [scan_number read hsign hwhole]
    unfold scanNumber
    rw [number_eq hsign hwhole hplaces hpower hr, decide_eq_true hne]
    simp only [hread]

/-- What follows an item ends it. -/
theorem ended_closing {ws r : Str} {closing : CodePoint} (hws : ∀ c ∈ ws, IsBlank c)
    (hclosing : closing ∈ ([0x2C, 0x5D, 0x7D] : Str)) : Ended (ws ++ closing :: r) := by
  intro c hc
  cases ws with
  | nil =>
      cases hc
      exact Or.inr hclosing
  | cons w ws =>
      cases hc
      exact Or.inl (hws _ List.mem_cons_self)

theorem ended_dumpsItems (depth : Nat) (xs : List Value) (r : Str) :
    Ended (dumpsItems l depth xs ++ r) := by
  cases xs with
  | nil =>
      rw [dumpsItems, List.append_assoc]
      exact ended_closing (l.closing_blank depth) (by decide)
  | cons x xs =>
      rw [dumpsItems]
      exact ended_closing (List.forall_mem_nil IsBlank) (by decide)

theorem ended_dumpsFields (depth : Nat) (fs : List (Str × Value)) (r : Str) :
    Ended (dumpsFields l depth fs ++ r) := by
  cases fs with
  | nil =>
      rw [dumpsFields, List.append_assoc]
      exact ended_closing (l.closing_blank depth) (by decide)
  | cons f fs =>
      rw [dumpsFields]
      exact ended_closing (List.forall_mem_nil IsBlank) (by decide)

theorem length_dumpsItems_pos (depth : Nat) (xs : List Value) :
    1 ≤ (dumpsItems l depth xs).length := by
  cases xs with
  | nil =>
      rw [dumpsItems, List.length_append, List.length_singleton]
      omega
  | cons x xs =>
      rw [dumpsItems, List.length_cons]
      omega

theorem length_dumpsFields_pos (depth : Nat) (fs : List (Str × Value)) :
    1 ≤ (dumpsFields l depth fs).length := by
  cases fs with
  | nil =>
      rw [dumpsFields, List.length_append, List.length_singleton]
      omega
  | cons f fs =>
      rw [dumpsFields, List.length_cons]
      omega

/-- With so much fuel whatever is written in as many characters is read back, off the
    front of what follows it. -/
structure Reads (read : Str → Str) (l : Layout) (fuel : Nat) : Prop where
  value : ∀ (v : Value) (depth frames : Nat) (r : Str), (∀ a ∈ atoms v, Sound read a) →
    Framed frames v → Ended r → (dumps l depth v).length ≤ fuel →
      scan read fuel frames (dumps l depth v ++ r) = .ok (v, r)
  items : ∀ (x : Value) (xs : List Value) (depth frames : Nat) (r : Str),
    (∀ a ∈ atomsItems (x :: xs), Sound read a) → FramedItems frames (x :: xs) →
    (dumps l (depth + 1) x ++ dumpsItems l depth xs).length ≤ fuel →
      scanItems read fuel frames (dumps l (depth + 1) x ++ (dumpsItems l depth xs ++ r)) =
        .ok (x :: xs, r)
  fields : ∀ (k : Str) (v : Value) (fs : List (Str × Value)) (depth frames : Nat) (r : Str),
    (∀ a ∈ atomsFields ((k, v) :: fs), Sound read a) → FramedFields frames ((k, v) :: fs) →
    (dumpsStr k ++ 0x3A :: (l.key ++ (dumps l (depth + 1) v ++ dumpsFields l depth fs))).length ≤
      fuel →
      scanFields read fuel frames (dumpsStr k ++ 0x3A :: (l.key ++ (dumps l (depth + 1) v ++
        (dumpsFields l depth fs ++ r)))) = .ok ((k, v) :: fs, r)

theorem head_dumps (depth : Nat) {v : Value} (h : ∀ a ∈ atoms v, Sound read a) (r : Str) :
    ∀ c ∈ (dumps l depth v ++ r).head?, Opens c := by
  rcases opens_dumps (l := l) depth h with ⟨c, rest, hrest, hc⟩
  intro d hd
  rw [hrest] at hd
  cases hd
  exact hc

theorem scan_array {fuel frames : Nat} {rest s : Str} (hrest : blanks rest = s)
    (hs : s.head? ≠ some 0x5D) :
    scan read (fuel + 1) (frames + 1) (0x5B :: rest) = (do
      let (xs, after) ← scanItems read fuel frames s
      return (arr xs, after)) := by
  subst hrest
  exact if_neg hs

theorem scan_object {fuel frames : Nat} {rest s : Str} (hrest : blanks rest = s)
    (hs : s.head? ≠ some 0x7D) :
    scan read (fuel + 1) (frames + 1) (0x7B :: rest) = (do
      let (fs, after) ← scanFields read fuel frames s
      return (obj (Dict.ofList fs), after)) := by
  subst hrest
  exact if_neg hs

/-- A value is read where its parts are. -/
theorem Reads.value_succ {fuel : Nat} (ih : Reads read l fuel) (v : Value) (depth frames : Nat)
    (r : Str) (h : ∀ a ∈ atoms v, Sound read a) (hframed : Framed frames v) (hr : Ended r)
    (hfuel : (dumps l depth v).length ≤ fuel + 1) :
    scan read (fuel + 1) frames (dumps l depth v ++ r) = .ok (v, r) := by
  cases v with
  -- Literals, one by one.
  | null => exact scan_literal (p := (text "null", null)) List.mem_cons_self fuel frames r
  | bool b =>
      cases b with
      | true =>
          exact scan_literal (p := (text "true", bool true))
            (List.mem_cons_of_mem _ List.mem_cons_self) fuel frames r
      | false =>
          exact scan_literal (p := (text "false", bool false))
            (List.mem_cons_of_mem _ (List.mem_cons_of_mem _ List.mem_cons_self)) fuel frames r
  | int n => exact scan_int (h _ (List.mem_singleton_self _)) fuel frames hr
  | float written => exact scan_float (h _ (List.mem_singleton_self _)) fuel frames hr
  | str s =>
      have hscan : scan read (fuel + 1) frames (quote :: (s.flatMap escape ++ quote :: r)) = (do
          let (t, after) ← scanString (quote :: (s.flatMap escape ++ quote :: r))
            ((s.flatMap escape ++ quote :: r).length + 1) (s.flatMap escape ++ quote :: r)
          return (str t, after)) := rfl
      rw [dumps, dumpsStr_append, hscan, scanString_dumpsStr]
      rfl
  | arr xs =>
      cases frames with
      | zero => exact hframed.elim
      | succ frames =>
          cases xs with
          | nil => rfl
          | cons x xs =>
              rw [atoms] at h
              have hx : ∀ a ∈ atoms x, Sound read a := (List.forall_mem_append.mp h).1
              -- Behind the bracket and its blanks the first item begins.
              have hhead := head_dumps (l := l) (depth + 1) hx (dumpsItems l depth xs ++ r)
              have hblanks := blanks_append (l.opening_blank (depth + 1))
                fun c hc => (hhead c hc).1
              rw [dumps, List.length_cons, List.length_append] at hfuel
              have hitems := ih.items x xs depth frames r h hframed (by omega)
              rw [dumps, List.cons_append, List.append_assoc, List.append_assoc,
                scan_array hblanks fun hc => (hhead _ hc).2.2.1 rfl, hitems]
              rfl
  | obj fs =>
      cases frames with
      | zero => exact hframed.elim
      | succ frames =>
          cases fs with
          | nil => rfl
          | cons f fs =>
              rcases f with ⟨k, v⟩
              rw [atoms] at h
              have hhead : ∀ c ∈ (dumpsStr k ++ 0x3A :: (l.key ++ (dumps l (depth + 1) v ++
                  (dumpsFields l depth fs ++ r)))).head?, Opens c := by
                intro c hc
                rw [dumpsStr_append] at hc
                cases hc
                decide
              have hblanks := blanks_append (l.opening_blank (depth + 1))
                fun c hc => (hhead c hc).1
              rw [dumps, List.length_cons, List.length_append] at hfuel
              have hfields := ih.fields k v fs depth frames r h hframed.2 (by omega)
              rw [dumps]
              simp only [List.cons_append, List.append_assoc]
              rw [scan_object hblanks fun hc => (hhead _ hc).2.2.2 rfl, hfields]
              -- No key comes twice, so the dictionary is the list.
              exact congrArg (fun fs => Except.ok (obj fs, r)) (Dict.ofList_eq_self hframed.1)

theorem Reads.items_succ {fuel : Nat} (ih : Reads read l fuel) (x : Value) (xs : List Value)
    (depth frames : Nat) (r : Str) (h : ∀ a ∈ atomsItems (x :: xs), Sound read a)
    (hframed : FramedItems frames (x :: xs))
    (hfuel : (dumps l (depth + 1) x ++ dumpsItems l depth xs).length ≤ fuel + 1) :
    scanItems read (fuel + 1) frames (dumps l (depth + 1) x ++ (dumpsItems l depth xs ++ r)) =
      .ok (x :: xs, r) := by
  have hx : ∀ a ∈ atoms x, Sound read a := (List.forall_mem_append.mp h).1
  have hxs : ∀ a ∈ atomsItems xs, Sound read a := (List.forall_mem_append.mp h).2
  -- What is behind an item is shorter by the item, so the fuel left is enough for it.
  have hpos := length_dumpsItems_pos (l := l) depth xs
  rw [List.length_append] at hfuel
  have hvalue := ih.value x (depth + 1) frames _ hx hframed.1 (ended_dumpsItems (l := l) depth xs r)
    (by omega)
  rw [scanItems, hvalue]
  cases xs with
  | nil =>
      have hnext := scanNext_closing (by decide : ¬ IsBlank 0x5D) (text "array") r
        (l.closing_blank depth)
      rw [dumpsItems, List.append_assoc]
      simp only [bind, Except.bind, List.cons_append, List.nil_append, hnext]
      rfl
  | cons y ys =>
      -- A comma, the blanks, and the next item.
      have hy : ∀ a ∈ atoms y, Sound read a := (List.forall_mem_append.mp hxs).1
      have hhead := head_dumps (l := l) (depth + 1) hy (dumpsItems l depth ys ++ r)
      have hnext := scanNext_item (by decide : (0x5D : CodePoint) ≠ 0x2C) (text "array")
        (l.item_blank (depth + 1)) fun c hc => ⟨(hhead c hc).1, (hhead c hc).2.2.1⟩
      rw [dumpsItems, List.length_cons, List.length_append] at hfuel
      have hrest := ih.items y ys depth frames r hxs hframed.2 (by omega)
      rw [dumpsItems]
      simp only [bind, Except.bind, List.cons_append, List.append_assoc, hnext, hrest]
      rfl

theorem Reads.fields_succ {fuel : Nat} (ih : Reads read l fuel) (k : Str) (v : Value)
    (fs : List (Str × Value)) (depth frames : Nat) (r : Str)
    (h : ∀ a ∈ atomsFields ((k, v) :: fs), Sound read a)
    (hframed : FramedFields frames ((k, v) :: fs))
    (hfuel : (dumpsStr k ++ 0x3A :: (l.key ++ (dumps l (depth + 1) v ++
      dumpsFields l depth fs))).length ≤ fuel + 1) :
    scanFields read (fuel + 1) frames (dumpsStr k ++ 0x3A :: (l.key ++ (dumps l (depth + 1) v ++
      (dumpsFields l depth fs ++ r)))) = .ok ((k, v) :: fs, r) := by
  rw [atomsFields, List.forall_mem_cons, List.forall_mem_append] at h
  -- What is behind a field is shorter by the field.
  have hpos := length_dumpsFields_pos (l := l) depth fs
  have hhead := head_dumps (l := l) (depth + 1) h.2.1 (dumpsFields l depth fs ++ r)
  have hkey := scanKey_dumps k l.key_blank fun c hc => (hhead c hc).1
  simp only [List.length_append, List.length_cons] at hfuel
  have hvalue := ih.value v (depth + 1) frames _ h.2.1 hframed.1
    (ended_dumpsFields (l := l) depth fs r) (by omega)
  rw [scanFields, hkey]
  simp only [bind, Except.bind, hvalue]
  cases fs with
  | nil =>
      have hnext := scanNext_closing (by decide : ¬ IsBlank 0x7D) (text "object") r
        (l.closing_blank depth)
      rw [dumpsFields, List.append_assoc]
      simp only [List.cons_append, List.nil_append, hnext]
      rfl
  | cons f fs =>
      -- A comma, the blanks, and the next key.
      rcases f with ⟨k', v'⟩
      have hnext := scanNext_item (by decide : (0x7D : CodePoint) ≠ 0x2C) (text "object")
        (s := dumpsStr k' ++ 0x3A :: (l.key ++ (dumps l (depth + 1) v' ++
          (dumpsFields l depth fs ++ r)))) (l.item_blank (depth + 1)) fun c hc => by
            rw [dumpsStr_append] at hc
            cases hc
            decide
      rw [dumpsFields, List.length_cons, List.length_append] at hfuel
      have hrest := ih.fields k' v' fs depth frames r h.2.2 hframed.2 (by omega)
      rw [dumpsFields]
      simp only [List.cons_append, List.append_assoc, hnext, hrest]
      rfl

/-- Whatever is written is read back, with as much fuel as there are characters. -/
theorem reads (read : Str → Str) (l : Layout) (fuel : Nat) : Reads read l fuel := by
  induction fuel with
  | zero =>
      -- Without fuel there is nothing to read, since no text is empty.
      refine ⟨fun v depth _ _ h _ _ hfuel => ?_, fun x xs depth _ _ _ _ hfuel => ?_,
        fun k v fs depth _ _ _ _ hfuel => ?_⟩
      · rcases opens_dumps (l := l) depth h with ⟨c, rest, hrest, _⟩
        rw [hrest, List.length_cons] at hfuel
        omega
      · have hpos := length_dumpsItems_pos (l := l) depth xs
        rw [List.length_append] at hfuel
        omega
      · rw [List.length_append, List.length_cons] at hfuel
        omega
  | succ fuel ih => exact ⟨ih.value_succ, ih.items_succ, ih.fields_succ⟩

/-- A text is read as the value it was written of, whatever blanks follow it. -/
theorem loads_dumps_append {v : Value} {frames : Nat} (h : ∀ a ∈ atoms v, Sound read a)
    (hframed : Framed frames v) {r : Str} (hr : ∀ c ∈ r, IsBlank c) :
    loads read frames (dumps l 0 v ++ r) = .ok v := by
  rcases opens_dumps (l := l) 0 h with ⟨c, rest, hrest, hc⟩
  -- No text begins with a byte order mark, which the reader refuses.
  have hbom : (dumps l 0 v ++ r).head? ≠ some 0xFEFF := by
    rw [hrest]
    intro heq
    cases heq
    exact absurd hc.2.1 (by decide)
  have hblanks : blanks (dumps l 0 v ++ r) = dumps l 0 v ++ r := by
    rw [hrest]
    exact blanks_cons hc.1
  have hended : Ended r := by
    intro d hd
    exact Or.inl (hr d (List.mem_of_mem_head? hd))
  have hscan := (reads read l (2 * (dumps l 0 v ++ r).length + 2)).value v 0 frames r h hframed
    hended (by rw [List.length_append]; omega)
  -- Behind the value there are blanks only.
  have hleft : blanks r = [] := by
    have h := blanks_append (s := []) hr nofun
    rwa [List.append_nil] at h
  unfold loads
  rw [if_neg hbom, hblanks, hscan]
  exact if_pos hleft

/-- A text is read as the value it was written of. -/
theorem loads_dumps {v : Value} {frames : Nat} (h : ∀ a ∈ atoms v, Sound read a)
    (hframed : Framed frames v) : loads read frames (dumps l 0 v) = .ok v := by
  have hloads := loads_dumps_append (l := l) h hframed (List.forall_mem_nil IsBlank)
  rwa [List.append_nil] at hloads

/-- A text determines the value it was written of. -/
theorem dumps_inj {v w : Value} {frames : Nat} (hv : ∀ a ∈ atoms v, Sound read a)
    (hw : ∀ a ∈ atoms w, Sound read a) (hvf : Framed frames v) (hwf : Framed frames w)
    (h : dumps l 0 v = dumps l 0 w) : v = w := by
  have hread := loads_dumps (l := l) hv hvf
  rw [h, loads_dumps hw hwf] at hread
  exact (Except.ok.inj hread).symm

end Written

end Value

end Theory
