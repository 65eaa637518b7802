import ClaimTriage.Theory.Uri

/-!
# Names and Literals of a Source

What the reader of a program makes of the names and the string literals in its
source.

A name is an identifier, which letters of any script may stand in, and two names
are one if they are normalized to one. Which characters these are and what they
are normalized to is in tables, of which only what they say of ASCII is used
here.

A literal between double quotes stands for the characters between them, unless
one of them ends it early or escapes what is after it. A backslash before a
character that is no escape stands for itself, so a text with backslashes may
well stand for itself: `Verbatim` says of a text that it does, and
`readLiteral_quoted` that no other text does. The reason is its length. No
escape stands for as much as it takes, and three quotes instead of one take more
than they leave.

## Main definitions

* `Tables`, `ascii`: What the reader has tables for, and those for ASCII.
* `Identifier`: A name that can be given to something.
* `escape`: What a backslash stands for with the characters after it.
* `readLiteral`: What a literal in double quotes stands for.
* `Verbatim`: A text that stands for itself between two double quotes.

## Theorems

* `length_readBody`: A literal stands for no more than is in it.
* `readLiteral_quoted`: Which texts stand for themselves.
-/

namespace Theory

namespace Lexis

open Text Uri

def underscore : CodePoint :=
  ofChar '_'

def quote : CodePoint :=
  ofChar '"'

def backslash : CodePoint :=
  ofChar '\\'

def newline : CodePoint :=
  0x0A

def carriageReturn : CodePoint :=
  0x0D

/-- A letter of ASCII. -/
def IsLetter (c : CodePoint) : Prop :=
  (0x41 ≤ c.val ∧ c.val ≤ 0x5A) ∨ (0x61 ≤ c.val ∧ c.val ≤ 0x7A)

instance (c : CodePoint) : Decidable (IsLetter c) :=
  inferInstanceAs (Decidable (_ ∨ _))

/-- What the reader of a source has tables for: which characters an identifier
    begins with, and goes on with, what a name is normalized to, and which
    character goes by a name. -/
structure Tables where
  starts : CodePoint → Bool
  continues : CodePoint → Bool
  normalize : Str → Str
  named : Str → Option CodePoint
  continues_of_starts : ∀ c : CodePoint, starts c = true → continues c = true
  starts_ascii : ∀ c : CodePoint, c.val < 0x80 →
    (starts c = true ↔ IsLetter c ∨ c = underscore)
  continues_ascii : ∀ c : CodePoint, c.val < 0x80 →
    (continues c = true ↔ IsLetter c ∨ c = underscore ∨ (0x30 ≤ c.val ∧ c.val ≤ 0x39))
  normalize_nil : normalize [] = []
  normalize_append : ∀ s t : Str, (∀ c ∈ t, c.val < 0x80) →
    normalize (s ++ t) = normalize s ++ t

/-- The tables of a reader of ASCII. -/
def ascii : Tables where
  starts c := IsLetter c ∨ c = underscore
  continues c := IsLetter c ∨ c = underscore ∨ (0x30 ≤ c.val ∧ c.val ≤ 0x39)
  normalize := id
  named _ := none
  continues_of_starts _ h := decide_eq_true (Or.imp_right Or.inl (of_decide_eq_true h))
  starts_ascii _ _ := decide_eq_true_iff
  continues_ascii _ _ := decide_eq_true_iff
  normalize_nil := rfl
  normalize_append _ _ _ := rfl

/-- The words that are no names. -/
def keywords : List Str :=
  [text "False", text "None", text "True", text "and", text "as", text "assert", text "async",
    text "await", text "break", text "class", text "continue", text "def", text "del",
    text "elif", text "else", text "except", text "finally", text "for", text "from",
    text "global", text "if", text "import", text "in", text "is", text "lambda",
    text "nonlocal", text "not", text "or", text "pass", text "raise", text "return",
    text "try", text "while", text "with", text "yield"]

/-- A name that can be given to something. -/
def Identifier (l : Tables) : Str → Prop
  | [] => False
  | c :: rest => l.starts c = true ∧ (∀ d ∈ rest, l.continues d = true) ∧ c :: rest ∉ keywords

/-- A text of ASCII is normalized to itself. -/
theorem Tables.normalize_of_ascii (l : Tables) {s : Str} (h : ∀ c ∈ s, c.val < 0x80) :
    l.normalize s = s := by
  have happend := l.normalize_append [] s h
  rwa [List.nil_append, l.normalize_nil, List.nil_append] at happend

/-! ### Literals -/

/-- A character a source can hold. -/
def Writable (c : CodePoint) : Prop :=
  c.val ≠ 0 ∧ Scalar c

instance (c : CodePoint) : Decidable (Writable c) :=
  inferInstanceAs (Decidable (_ ∧ _))

/-- The characters a backslash makes another character of, with that one. -/
def simpleEscapes : List (CodePoint × CodePoint) :=
  [(backslash, backslash), (ofChar '\'', ofChar '\''), (quote, quote), (ofChar 'a', 0x07),
    (ofChar 'b', 0x08), (ofChar 'f', 0x0C), (ofChar 'n', newline), (ofChar 'r', carriageReturn),
    (ofChar 't', 0x09), (ofChar 'v', 0x0B)]

def IsOctal (c : CodePoint) : Prop :=
  0x30 ≤ c.val ∧ c.val ≤ 0x37

instance (c : CodePoint) : Decidable (IsOctal c) :=
  inferInstanceAs (Decidable (_ ∧ _))

/-- The characters that are no longer themselves behind a backslash. -/
def Escaping (c : CodePoint) : Prop :=
  c = newline ∨ c = carriageReturn ∨ c ∈ simpleEscapes.map Prod.fst ∨ IsOctal c ∨
    c ∈ [ofChar 'x', ofChar 'u', ofChar 'U', ofChar 'N']

instance (c : CodePoint) : Decidable (Escaping c) :=
  inferInstanceAs (Decidable (_ ∨ _))

/-- The character of so many hexadecimal digits. -/
def hexPoint (count : Nat) (s : Str) : Option CodePoint := do
  let digits ← (s.take count).mapM hexValue
  let n := digits.foldl (fun n d => 16 * n + d) 0
  if h : digits.length = count ∧ n < 0x110000 then some ⟨n, h.2⟩ else none

/-- The character of up to three octal digits, and how many there are. -/
def octalPoint (s : Str) : Str × Nat :=
  let digits := (s.take 3).takeWhile (IsOctal ·)
  ([Fin.ofNat 0x110000 (digits.foldl (fun n d => 8 * n + (d.val - 0x30)) 0)], digits.length)

/-- The character that goes by the name in braces, and how many it takes. -/
def namedPoint (l : Tables) : Str → Option (Str × Nat)
  | [] => none
  | c :: rest =>
    let name := rest.takeWhile (· ≠ ofChar '\x7d')
    if c = ofChar '\x7b' ∧ name.length < rest.length then
      (l.named name).map fun d => ([d], name.length + 3)
    else none

/-- What a backslash stands for with the characters after it, and how many of
    them it takes. Before a character that is no escape it stands for itself. -/
def escape (l : Tables) : Str → Option (Str × Nat)
  | [] => none
  | c :: rest =>
    if c = newline then some ([], 1)
    else if c = carriageReturn then some ([], if rest.head? = some newline then 2 else 1)
    else match simpleEscapes.lookup c with
      | some d => some ([d], 1)
      | none =>
        if IsOctal c then some (octalPoint (c :: rest))
        else if c = ofChar 'x' then (hexPoint 2 rest).map fun d => ([d], 3)
        else if c = ofChar 'u' then (hexPoint 4 rest).map fun d => ([d], 5)
        else if c = ofChar 'U' then (hexPoint 8 rest).map fun d => ([d], 9)
        else if c = ofChar 'N' then namedPoint l rest
        else if Writable c then some ([backslash, c], 1)
        else none

/-- The literal ends here: a quote does, and three do where it began with
    three. -/
def closes (long : Bool) (s : Str) : Bool :=
  if long then [quote, quote, quote] <+: s else s.head? = some quote

/-- What is left after the end of a literal. -/
def afterwards (long : Bool) (s : Str) : Str :=
  s.drop (if long then 3 else 1)

/-- What the body of a literal stands for, once so many characters of it have been
    taken, if it ends with the text. Only one that began with three quotes has
    lines, which are ended by newlines whatever they were ended by. -/
def readBody (l : Tables) (long : Bool) : Nat → Str → Option Str
  | _, [] => none
  | taken + 1, _ :: rest => readBody l long taken rest
  | 0, c :: rest =>
    if closes long (c :: rest) then
      if afterwards long (c :: rest) = [] then some [] else none
    else if ¬ Writable c then none
    else if c = newline then
      if long then (readBody l long 0 rest).map (newline :: ·) else none
    else if c = carriageReturn then
      if long then
        if rest.head? = some newline then readBody l long 0 rest
        else (readBody l long 0 rest).map (newline :: ·)
      else none
    else if c = backslash then
      match escape l rest with
      | none => none
      | some (made, taken) => (readBody l long taken rest).map (made ++ ·)
    else (readBody l long 0 rest).map (c :: ·)

/-- What a text stands for that is one literal in double quotes. -/
def readLiteral (l : Tables) : Str → Option Str
  | [] => none
  | c :: rest =>
    if c = quote then
      if [quote, quote] <+: rest then readBody l true 0 (rest.drop 2) else readBody l false 0 rest
    else none

/-- A text that stands for itself between two double quotes: no quote and no end
    of a line is in it, and a backslash only before a character that is no
    escape. -/
def Verbatim : Str → Prop
  | [] => True
  | c :: rest =>
    (Writable c ∧ c ≠ quote ∧ c ≠ newline ∧ c ≠ carriageReturn) ∧
      (c = backslash → ∃ d ∈ rest.head?, ¬ Escaping d) ∧ Verbatim rest

instance decidableVerbatim : DecidablePred Verbatim
  | [] => isTrue trivial
  | c :: rest =>
    have := decidableVerbatim rest
    have : Decidable (∃ d ∈ rest.head?, ¬ Escaping d) := Option.decidableExistsMem _
    inferInstanceAs (Decidable ((Writable c ∧ c ≠ quote ∧ c ≠ newline ∧ c ≠ carriageReturn) ∧
      (c = backslash → ∃ d ∈ rest.head?, ¬ Escaping d) ∧ Verbatim rest))

/-! ### How much a literal stands for -/

theorem length_octalPoint {c : CodePoint} (h : IsOctal c) (rest : Str) :
    (octalPoint (c :: rest)).1.length = 1 ∧ 1 ≤ (octalPoint (c :: rest)).2 := by
  refine ⟨rfl, ?_⟩
  simp only [octalPoint, List.take_succ_cons, List.takeWhile_cons, decide_eq_true h, if_true,
    List.length_cons]
  omega

theorem length_namedPoint {l : Tables} {s made : Str} {taken : Nat}
    (h : namedPoint l s = some (made, taken)) : made.length = 1 ∧ 1 ≤ taken := by
  cases s with
  | nil => cases h
  | cons c rest =>
      simp only [namedPoint] at h
      split at h
      · rcases Option.map_eq_some_iff.mp h with ⟨d, _, heq⟩
        cases heq
        exact ⟨rfl, by omega⟩
      · cases h

theorem lookup_ne_none {c : CodePoint} (h : c ∈ simpleEscapes.map Prod.fst) :
    simpleEscapes.lookup c ≠ none := by
  rcases List.mem_map.mp h with ⟨entry, hmem, rfl⟩
  intro hnone
  have hne := List.lookup_eq_none_iff.mp hnone entry hmem
  simp at hne

/-- A backslash stands for itself before a character that is no escape. -/
theorem escape_of_not_escaping {l : Tables} {c : CodePoint} (hwritable : Writable c)
    (h : ¬ Escaping c) (rest : Str) : escape l (c :: rest) = some ([backslash, c], 1) := by
  simp only [Escaping, not_or, List.mem_cons, List.not_mem_nil, not_false_eq_true, and_true] at h
  rcases h with ⟨hnewline, hreturn, hsimple, hoctal, hx, hu, hU, hN⟩
  have hlookup : simpleEscapes.lookup c = none := by
    refine List.lookup_eq_none_iff.mpr fun entry hmem => ?_
    simp only [bne_iff_ne, ne_eq]
    rintro rfl
    exact hsimple (List.mem_map_of_mem hmem)
  simp only [escape, hlookup, if_neg hnewline, if_neg hreturn, if_neg hoctal, if_neg hx,
    if_neg hu, if_neg hU, if_neg hN, if_pos hwritable]

/-- What a backslash takes stands for less, unless it is no escape. -/
theorem escape_cases {l : Tables} {s made : Str} {taken : Nat}
    (h : escape l s = some (made, taken)) :
    (made.length ≤ 1 ∧ 1 ≤ taken) ∨
      ∃ c rest, s = c :: rest ∧ (Writable c ∧ ¬ Escaping c) ∧ made = [backslash, c] ∧
        taken = 1 := by
  cases s with
  | nil => cases h
  | cons c rest =>
      have hone : ∀ {digits : Option CodePoint} {n : Nat}, 1 ≤ n →
          (digits.map fun d => ([d], n)) = some (made, taken) → made.length ≤ 1 ∧ 1 ≤ taken := by
        intro digits n hn heq
        rcases Option.map_eq_some_iff.mp heq with ⟨d, _, hpair⟩
        cases hpair
        exact ⟨Nat.le_refl 1, hn⟩
      simp only [escape] at h
      by_cases hnewline : c = newline
      · rw [if_pos hnewline] at h
        cases h
        exact Or.inl ⟨Nat.zero_le 1, Nat.le_refl 1⟩
      rw [if_neg hnewline] at h
      by_cases hreturn : c = carriageReturn
      · rw [if_pos hreturn] at h
        cases h
        refine Or.inl ⟨Nat.zero_le 1, ?_⟩
        split <;> omega
      rw [if_neg hreturn] at h
      cases hsimple : simpleEscapes.lookup c with
      | some d =>
          rw [hsimple] at h
          cases h
          exact Or.inl ⟨Nat.le_refl 1, Nat.le_refl 1⟩
      | none =>
          rw [hsimple] at h
          simp only at h
          by_cases hoctal : IsOctal c
          · rw [if_pos hoctal] at h
            cases h
            rcases length_octalPoint hoctal rest with ⟨hmade, htaken⟩
            exact Or.inl ⟨Nat.le_of_eq hmade, htaken⟩
          rw [if_neg hoctal] at h
          by_cases hx : c = ofChar 'x'
          · rw [if_pos hx] at h
            exact Or.inl (hone (by omega) h)
          rw [if_neg hx] at h
          by_cases hu : c = ofChar 'u'
          · rw [if_pos hu] at h
            exact Or.inl (hone (by omega) h)
          rw [if_neg hu] at h
          by_cases hU : c = ofChar 'U'
          · rw [if_pos hU] at h
            exact Or.inl (hone (by omega) h)
          rw [if_neg hU] at h
          by_cases hN : c = ofChar 'N'
          · rw [if_pos hN] at h
            rcases length_namedPoint h with ⟨hmade, htaken⟩
            exact Or.inl ⟨Nat.le_of_eq hmade, htaken⟩
          rw [if_neg hN] at h
          by_cases hwritable : Writable c
          · rw [if_pos hwritable] at h
            cases h
            refine Or.inr ⟨c, rest, rfl, ⟨hwritable, ?_⟩, rfl, rfl⟩
            rintro (heq | heq | heq | heq | heq)
            · exact hnewline heq
            · exact hreturn heq
            · exact lookup_ne_none heq hsimple
            · exact hoctal heq
            · simp only [List.mem_cons, List.not_mem_nil, or_false] at heq
              rcases heq with heq | heq | heq | heq
              · exact hx heq
              · exact hu heq
              · exact hU heq
              · exact hN heq
          · rw [if_neg hwritable] at h
            cases h

/-- What has been taken already is passed over. -/
theorem readBody_taken (l : Tables) (long : Bool) (taken : Nat) (s : Str) :
    readBody l long taken s = readBody l long 0 (s.drop taken) := by
  induction s generalizing taken with
  | nil =>
      rw [List.drop_nil]
      cases taken <;> rfl
  | cons c rest ih =>
      cases taken with
      | zero => rfl
      | succ taken =>
          rw [List.drop_succ_cons, ← ih]
          rfl

/-- How a literal goes on: it ends, with nothing after it; it has an end of a line;
    it has an escape; or it has a character that stands for itself. -/
theorem readBody_cases {l : Tables} {long : Bool} {c : CodePoint} {rest made : Str}
    (h : readBody l long 0 (c :: rest) = some made) :
    (closes long (c :: rest) = true ∧ afterwards long (c :: rest) = [] ∧ made = []) ∨
      (long = true ∧ ∃ tail, readBody l long 0 rest = some tail ∧
        made.length ≤ tail.length + 1) ∨
      (c = backslash ∧ ∃ now taken tail, escape l rest = some (now, taken) ∧
        readBody l long 0 (rest.drop taken) = some tail ∧ made = now ++ tail) ∨
      ((Writable c ∧ closes long (c :: rest) = false ∧ c ≠ newline ∧ c ≠ carriageReturn ∧
          c ≠ backslash) ∧
        ∃ tail, readBody l long 0 rest = some tail ∧ made = c :: tail) := by
  rw [readBody] at h
  split at h
  · rename_i hcloses
    split at h
    · rename_i hafter
      cases h
      exact Or.inl ⟨hcloses, hafter, rfl⟩
    · cases h
  · rename_i hcloses
    split at h
    · cases h
    · rename_i hwritable
      split at h
      · split at h
        · rename_i hlong
          rcases Option.map_eq_some_iff.mp h with ⟨tail, htail, rfl⟩
          exact Or.inr (Or.inl ⟨hlong, tail, htail, Nat.le_refl _⟩)
        · cases h
      · rename_i hnewline
        split at h
        · split at h
          · rename_i hlong
            split at h
            · exact Or.inr (Or.inl ⟨hlong, made, h, Nat.le_succ _⟩)
            · rcases Option.map_eq_some_iff.mp h with ⟨tail, htail, rfl⟩
              exact Or.inr (Or.inl ⟨hlong, tail, htail, Nat.le_refl _⟩)
          · cases h
        · rename_i hreturn
          split at h
          · rename_i hbackslash
            split at h
            · cases h
            · rename_i now taken hescape
              rcases Option.map_eq_some_iff.mp h with ⟨tail, htail, rfl⟩
              rw [readBody_taken] at htail
              exact Or.inr (Or.inr (Or.inl ⟨hbackslash, now, taken, tail, hescape, htail, rfl⟩))
          · rename_i hbackslash
            rcases Option.map_eq_some_iff.mp h with ⟨tail, htail, rfl⟩
            refine Or.inr (Or.inr (Or.inr ⟨⟨not_not.mp hwritable, ?_, hnewline, hreturn,
              hbackslash⟩, tail, htail, rfl⟩))
            exact eq_false_of_ne_true hcloses

theorem length_closes {long : Bool} {s : Str} (h : closes long s = true) :
    (if long then 3 else 1) ≤ s.length := by
  cases long with
  | false =>
      cases s with
      | nil => cases h
      | cons => exact Nat.succ_le_succ (Nat.zero_le _)
  | true =>
      have hprefix : [quote, quote, quote] <+: s := by simpa only [closes, if_true,
        List.isPrefixOf_iff_prefix, decide_eq_true_eq] using h
      exact hprefix.length_le

/-- A literal stands for no more than is in it. -/
theorem length_readBody {l : Tables} {long : Bool} {s made : Str}
    (h : readBody l long 0 s = some made) :
    made.length + (if long then 3 else 1) ≤ s.length := by
  -- By induction on the length, as an escape takes several characters at once.
  obtain ⟨n, hn⟩ : ∃ n, s.length = n := ⟨_, rfl⟩
  induction n using Nat.strong_induction_on generalizing s made with
  | h n ih =>
      subst hn
      cases s with
      | nil => cases h
      | cons c rest =>
          have hrest : (c :: rest).length = rest.length + 1 := rfl
          rcases readBody_cases h with ⟨hcloses, _, rfl⟩ | ⟨_, tail, htail, hlength⟩ |
            ⟨_, now, taken, tail, hescape, htail, rfl⟩ | ⟨_, tail, htail, rfl⟩
          · have hends := length_closes hcloses
            rw [List.length_nil]
            omega
          · have htail' := ih _ (Nat.lt_succ_self _) htail rfl
            omega
          · have hdrop : (rest.drop taken).length = rest.length - taken := List.length_drop
            have htail' := ih _ (by omega) htail rfl
            have hends : 1 ≤ (if long then 3 else 1) := by split <;> omega
            rw [List.length_append]
            -- An escape stands for one character, and takes that and the backslash.
            rcases escape_cases hescape with ⟨hnow, htaken⟩ | ⟨_, _, _, _, rfl, rfl⟩
            · omega
            · simp only [List.length_cons, List.length_nil]
              omega
          · have htail' := ih _ (Nat.lt_succ_self _) htail rfl
            rw [List.length_cons]
            omega

/-- Only a text that stands for itself is read from its characters and a quote. -/
theorem verbatim_of_readBody {l : Tables} {s : Str}
    (h : readBody l false 0 (s ++ [quote]) = some s) : Verbatim s := by
  obtain ⟨n, hn⟩ : ∃ n, s.length = n := ⟨_, rfl⟩
  induction n using Nat.strong_induction_on generalizing s with
  | h n ih =>
      subst hn
      cases s with
      | nil => trivial
      | cons c rest =>
          rw [List.cons_append] at h
          rcases readBody_cases h with ⟨_, _, hnil⟩ | ⟨hlong, _⟩ |
            ⟨rfl, now, taken, tail, hescape, htail, heq⟩ |
            ⟨⟨hwritable, hcloses, hnewline, hreturn, hbackslash⟩, tail, htail, heq⟩
          · cases hnil
          · cases hlong
          · rcases escape_cases hescape with ⟨hnow, htaken⟩ |
              ⟨d, after, hrest, ⟨hwritable, hnot⟩, rfl, rfl⟩
            · -- What is read is shorter than what it is read from.
              have hlength := length_readBody htail
              have hread := congrArg List.length heq
              simp only [List.length_append, List.length_cons, List.length_drop,
                List.length_nil, Bool.false_eq_true, if_false] at hlength hread
              omega
            · cases rest with
              | nil =>
                  cases hrest
                  exact absurd (by decide : Escaping quote) hnot
              | cons e rest =>
                  cases hrest
                  rw [List.cons_append, List.drop_succ_cons, List.drop_zero] at htail
                  simp only [List.cons_append, List.nil_append, List.cons.injEq, true_and] at heq
                  subst heq
                  have hne : ∀ x, Escaping x → d ≠ x := fun x hx hdx => hnot (hdx ▸ hx)
                  exact ⟨⟨by decide, by decide, by decide, by decide⟩,
                    fun _ => ⟨d, rfl, hnot⟩,
                    ⟨hwritable, hne _ (by decide), hne _ (by decide), hne _ (by decide)⟩,
                    fun hd => absurd hd (hne _ (by decide)),
                    ih _ (Nat.lt_trans (Nat.lt_succ_self _) (Nat.lt_succ_self _)) htail rfl⟩
          · cases heq
            have hquote : c ≠ quote := by
              rintro rfl
              cases hcloses
            exact ⟨⟨hwritable, hquote, hnewline, hreturn⟩, fun hc => absurd hc hbackslash,
              ih _ (Nat.lt_succ_self _) htail rfl⟩

/-- A text that stands for itself is read from its characters and a quote. -/
theorem readBody_of_verbatim (l : Tables) {s : Str} (h : Verbatim s) :
    readBody l false 0 (s ++ [quote]) = some s := by
  obtain ⟨n, hn⟩ : ∃ n, s.length = n := ⟨_, rfl⟩
  induction n using Nat.strong_induction_on generalizing s with
  | h n ih =>
      subst hn
      cases s with
      | nil => rfl
      | cons c rest =>
          rcases h with ⟨⟨hwritable, hquote, hnewline, hreturn⟩, hescape, hrest⟩
          have hcloses : closes false (c :: (rest ++ [quote])) = false := by
            simpa only [closes, Bool.false_eq_true, if_false, List.head?_cons,
              Option.some.injEq, decide_eq_false_iff_not] using hquote
          rw [List.cons_append, readBody, hcloses, if_neg Bool.false_ne_true,
            if_neg (not_not_intro hwritable), if_neg hnewline, if_neg hreturn]
          by_cases hbackslash : c = backslash
          · rcases hescape hbackslash with ⟨d, hd, hnot⟩
            cases rest with
            | nil => cases hd
            | cons e rest =>
                cases hd
                have hlength : rest.length < (c :: d :: rest).length :=
                  Nat.lt_trans (Nat.lt_succ_self _) (Nat.lt_succ_self _)
                rw [if_pos hbackslash, List.cons_append,
                  escape_of_not_escaping hrest.1.1 hnot]
                simp only [readBody_taken l false 1, List.drop_succ_cons, List.drop_zero,
                  ih _ hlength hrest.2.2 rfl, Option.map_some, hbackslash]
                rfl
          · rw [if_neg hbackslash, ih _ (Nat.lt_succ_self _) hrest rfl]
            rfl

/-- A text between two double quotes is a literal that stands for it exactly if no
    quote and no end of a line is in it, every character is one a source can hold,
    and a backslash stands only before a character that is no escape. -/
theorem readLiteral_quoted (l : Tables) {s : Str} :
    readLiteral l (quote :: (s ++ [quote])) = some s ↔ Verbatim s := by
  rw [readLiteral, if_pos rfl]
  split
  · rename_i hprefix
    constructor
    · -- Three quotes instead of one take more than is left.
      intro h
      have hlength := length_readBody h
      simp only [if_true, List.length_drop, List.length_append, List.length_singleton] at hlength
      omega
    · intro h
      cases s with
      | nil => exact absurd hprefix (by decide)
      | cons c rest =>
          rw [List.cons_append, List.cons_prefix_cons] at hprefix
          exact absurd hprefix.1.symm h.1.2.1
  · exact ⟨verbatim_of_readBody, readBody_of_verbatim l⟩

end Lexis

end Theory
