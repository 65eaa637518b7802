import ClaimTriage.Theory.Lines
import ClaimTriage.Theory.Yaml

/-!
# Rendering

The texts the generator makes of a contract's: names, docstrings and comments.

What is described is reflowed: its words are laid out again in lines of a width.
A docstring keeps its paragraphs apart, and there is no first one to open it with
where all of them are blank. A description that is no text is not looked at
before it is taken apart.

What the language makes of a value by tables of its own, such as the lower case
of a letter or how a value is written in a program, is given by `Builtins`.

## Main definitions

* `Raised`: A construct outside the subset the generator reads, or whatever else
  is raised.
* `Builtins`: What the language has tables for.
* `wrapped`, `textLines`, `comments`: What is described, laid out.
* `memberName`, `snake`, `headerName`, `errorName`: Names.
* `Textable`, `Commentable`, `Usable`: What can be laid out, and named.

## Theorems

* `settles_textLines`, `settles_comments`, `settles_memberName`,
  `settles_errorName`: When these settle.
-/

namespace ClaimTriage

namespace Codegen

open Theory Text Numeral Failing Yaml

/-- How reading a contract ends without a result: the construct it refuses, with where
    the document has it, or a fault. -/
abbrev Raised := Stop Str

/-- What the language makes of values and texts by tables of its own: how a value is
    written in a program, the cases of letters, which characters make up words, and which
    stand for a decimal digit. An integer of more than `maxStrDigits` digits, which a
    document can hold in another base, is written here; an interpreter raises. -/
structure Builtins (N : Type) where
  repr : Value N → Str
  lower : Str → Str
  upper : Str → Str
  capitalize : Str → Str
  isWord : CodePoint → Bool
  decimal : CodePoint → Option Nat

/-- A construct outside the subset. -/
def unsupported {α : Type} (message : Str) : Except Raised α :=
  .error (.refused message)

/-- How wide a generated docstring or comment line may be before it wraps. -/
def width : Nat :=
  92

def underscore : CodePoint := 0x5F

/-- Texts with another between any two. -/
def joined (separator : Str) (parts : List Str) : Str :=
  separator.intercalate parts

section Builtins

variable {N : Type} (b : Builtins N)

/-- A value as a text. -/
def Builtins.str : Value N → Str
  | .scalar (.text s) => s
  | .scalar (.date shown) => shown
  | v => b.repr v

/-- The digits of a numeral, which single underscores may stand between. -/
def Builtins.digits (s : Str) : Option (List Nat) :=
  let groups := s.splitOn underscore
  if groups.all (! ·.isEmpty) then groups.flatten.mapM b.decimal else none

/-- A blank that may stand around a numeral: none of the four separators of ASCII. -/
def IsMargin (c : CodePoint) : Prop :=
  IsSpace c ∧ ¬ (0x1C ≤ c.val ∧ c.val ≤ 0x1F)

instance (c : CodePoint) : Decidable (IsMargin c) :=
  inferInstanceAs (Decidable (_ ∧ _))

/-- The integer a text is read as: a numeral, perhaps signed, among blanks. -/
def Builtins.int (s : Str) : Option Int :=
  let (sign, numeral) : Int × Str :=
    match ((s.dropWhile (IsMargin ·)).reverse.dropWhile (IsMargin ·)).reverse with
    | [] => (1, [])
    | c :: rest => if c = 0x2B then (1, rest) else if c = 0x2D then (-1, rest) else (1, c :: rest)
  match b.digits numeral with
  | some digits =>
      if digits.length ≤ maxStrDigits then
        some (sign * (digits.foldl (fun n d => 10 * n + d) 0 : Nat))
      else none
  | none => none

end Builtins

/-! ### What is described -/

/-- Words laid out in lines of a width, after those on the current line. -/
def wrap (width : Nat) (current : Str) : List Str → List Str
  | [] => if current = [] then [] else [current]
  | word :: rest =>
      let candidate := strip (current ++ text " " ++ word)
      if current ≠ [] ∧ width < candidate.length then current :: wrap width word rest
      else wrap width candidate rest

/-- A text laid out in lines of a width. -/
def wrapped (s : Str) (width : Nat) : List Str :=
  wrap width [] (words s)

/-- The parts of a text between two newlines at once, the first one begun with what is
    held already, last character first. -/
def splitParagraphs (held : Str) : Str → List Str
  | [] => [held.reverse]
  | [c] => [(c :: held).reverse]
  | c :: d :: rest =>
      if c = 0x0A ∧ d = 0x0A then held.reverse :: splitParagraphs [] rest
      else splitParagraphs (c :: held) (d :: rest)

def quotes : Str := text "\"\"\""

section Layout

variable {N : Type}

/-- One docstring, as the lines the generated code carries, or nothing when there is
    none. Paragraphs stay apart. -/
def textLines (described : Option (Value N)) (indent : Str) : Except Raised (List Str) :=
  match described with
  | none => .ok []
  | some v =>
      if ¬ v.truthy then .ok []
      else match v with
        | .scalar (.text s) =>
            let paragraphs := ((splitParagraphs [] s).filter (strip · ≠ [])).map
              (wrapped · (width - indent.length - quotes.length))
            match paragraphs with
            -- There is no first paragraph, or it has no first line.
            | [] | [] :: _ => .error (.fault .index)
            | [line] :: [] => .ok [indent ++ quotes ++ line ++ quotes]
            | (line :: lines) :: others =>
                .ok ((indent ++ quotes ++ line) :: lines.map (indent ++ ·) ++
                  others.flatMap (fun paragraph => [] :: paragraph.map (indent ++ ·)) ++
                  [indent ++ quotes])
        | .scalar (.bytes _) => .error (.fault .type)
        | _ => .error (.fault .attribute)

/-- The words of what is binary, which only blanks of one byte separate. -/
def byteWords (bytes : List (Fin 256)) : List (List (Fin 256)) :=
  (bytes.splitOnP fun c => c.val ∈ [0x09, 0x0A, 0x0B, 0x0C, 0x0D, 0x20]).filter (! ·.isEmpty)

/-- What is described, as comment lines. -/
def comments (b : Builtins N) (described : Option (Value N)) (indent : Str) :
    Except Raised (List Str) :=
  match described with
  | none => .ok []
  | some v =>
      if ¬ v.truthy then .ok []
      else match v with
        | .scalar (.text s) =>
            .ok ((wrapped s (width - indent.length)).map (indent ++ text "# " ++ ·))
        | .scalar (.bytes bytes) =>
            .ok ((wrap (width - indent.length) []
              ((byteWords bytes).map fun word => b.repr (.scalar (.bytes word)))).map
                (indent ++ text "# " ++ ·))
        | _ => .error (.fault .attribute)

/-! ### Names -/

/-- A letter or a digit, of those on every keyboard. -/
def isAlphanumeric (c : CodePoint) : Bool :=
  (0x30 ≤ c.val ∧ c.val ≤ 0x39) ∨ (0x41 ≤ c.val ∧ c.val ≤ 0x5A) ∨ (0x61 ≤ c.val ∧ c.val ≤ 0x7A)

/-- Every run of other characters as one underscore. -/
def collapsed (within : Bool) : Str → Str
  | [] => []
  | c :: rest =>
      if isAlphanumeric c then c :: collapsed false rest
      else if within then collapsed true rest
      else underscore :: collapsed true rest

/-- The upper case of a letter on every keyboard. -/
def upperAscii (c : CodePoint) : CodePoint :=
  if h : 0x61 ≤ c.val ∧ c.val ≤ 0x7A then ⟨c.val - 0x20, by omega⟩ else c

/-- The lower case of a letter on every keyboard. -/
def lowerAscii (c : CodePoint) : CodePoint :=
  if h : 0x41 ≤ c.val ∧ c.val ≤ 0x5A then ⟨c.val + 0x20, by omega⟩ else c

/-- The member an enum's value is named by. -/
def memberName (b : Builtins N) (value : Value N) (place : Str) : Except Raised Str :=
  match value with
  | .scalar (.text s) =>
      let member := (collapsed false s).map upperAscii
      match member with
      | [] => unsupported (place ++ text ": " ++ b.repr value ++ text " has no usable member name")
      | c :: _ =>
          if IsDigit c then
            unsupported (place ++ text ": " ++ b.repr value ++ text " has no usable member name")
          else .ok member
  | _ => .error (.fault .type)

/-- A name with its capitals as words of their own. -/
def snake (b : Builtins N) (name : Str) : Str :=
  b.lower (name.take 1 ++ (name.drop 1).flatMap fun c =>
    if 0x41 ≤ c.val ∧ c.val ≤ 0x5A then [underscore, c] else [c])

/-- A parameter's name as an argument's. -/
def headerName (name : Str) : Str :=
  ((((collapsed false name).dropWhile (· = underscore)).reverse.dropWhile
    (· = underscore)).reverse).map lowerAscii

/-- The exception an error code is raised as. -/
def errorName (b : Builtins N) (code : Value N) : Except Raised Str :=
  match code with
  | .scalar (.text s) => .ok ((s.splitOn underscore).flatMap b.capitalize ++ text "Error")
  | .scalar (.bytes _) => .error (.fault .type)
  | _ => .error (.fault .attribute)

/-! ### What can be laid out -/

/-- A text that is not all blank is described, or nothing is. -/
def Textable (described : Option (Value N)) : Prop :=
  ∀ v ∈ described, v.truthy → ∃ s, v = .scalar (.text s) ∧ ∃ c ∈ s, ¬ IsSpace c

/-- A text is described, or what is binary, or nothing is. -/
def Commentable (described : Option (Value N)) : Prop :=
  ∀ v ∈ described, v.truthy → (∃ s, v = .scalar (.text s)) ∨ ∃ bytes, v = .scalar (.bytes bytes)

theorem mem_splitOnP {p : CodePoint → Bool} {s w : Str} (h : w ∈ s.splitOnP p) :
    ∀ c ∈ w, p c = false := by
  induction s generalizing w with
  | nil =>
      rw [List.splitOnP_nil, List.mem_singleton] at h
      subst h
      exact fun c hc => absurd hc List.not_mem_nil
  | cons x s ih =>
      rw [List.splitOnP_cons_eq_if_modifyHead] at h
      -- Where the text is split, a piece ends; where it is not, the first piece grows.
      split at h
      · rcases List.mem_cons.mp h with rfl | h
        · exact fun c hc => absurd hc List.not_mem_nil
        · exact ih h
      · rename_i hx
        cases hparts : s.splitOnP p with
        | nil => exact absurd hparts (List.splitOnP_ne_nil p s)
        | cons first rest =>
            rw [hparts, List.modifyHead_cons] at h
            rw [hparts] at ih
            rcases List.mem_cons.mp h with rfl | h
            · intro c hc
              rcases List.mem_cons.mp hc with rfl | hc
              · exact Bool.not_eq_true _ ▸ hx
              · exact ih List.mem_cons_self c hc
            · exact ih (List.mem_cons_of_mem _ h)

theorem exists_mem_splitOnP {p : CodePoint → Bool} {s : Str} {c : CodePoint} (hc : c ∈ s)
    (hp : p c = false) : ∃ w ∈ s.splitOnP p, w ≠ [] := by
  induction s with
  | nil => exact absurd hc List.not_mem_nil
  | cons x s ih =>
      rw [List.splitOnP_cons_eq_if_modifyHead]
      -- The character that is kept is in the first piece, or in one after it.
      split
      · rename_i hx
        rcases List.mem_cons.mp hc with rfl | hc
        · rw [hp] at hx
          cases hx
        · rcases ih hc with ⟨w, hw, hne⟩
          exact ⟨w, List.mem_cons_of_mem _ hw, hne⟩
      · cases hparts : s.splitOnP p with
        | nil => exact absurd hparts (List.splitOnP_ne_nil p s)
        | cons first rest =>
            rw [List.modifyHead_cons]
            exact ⟨_, List.mem_cons_self, List.cons_ne_nil _ _⟩

/-- Every word has a character that is not blank. -/
theorem exists_of_mem_words {s w : Str} (h : w ∈ words s) : ∃ c ∈ w, ¬ IsSpace c := by
  rcases List.mem_filter.mp h with ⟨hmem, hne⟩
  cases w with
  | nil => cases hne
  | cons c w =>
      exact ⟨c, List.mem_cons_self, of_decide_eq_false (mem_splitOnP hmem c List.mem_cons_self)⟩

theorem words_ne_nil {s : Str} (h : ∃ c ∈ s, ¬ IsSpace c) : words s ≠ [] := by
  rcases h with ⟨c, hc, hspace⟩
  rcases exists_mem_splitOnP (p := (IsSpace ·)) hc (decide_eq_false hspace) with ⟨w, hw, hne⟩
  exact List.ne_nil_of_mem (a := w) (List.mem_filter.mpr ⟨hw, decide_eq_true hne⟩)

theorem wrap_ne_nil {width : Nat} {current : Str} {rest : List Str}
    (h : current ≠ [] ∨ rest ≠ []) (hwords : ∀ w ∈ rest, ∃ c ∈ w, ¬ IsSpace c) :
    wrap width current rest ≠ [] := by
  induction rest generalizing current with
  | nil =>
      rcases h with h | h
      · rw [wrap, if_neg h]
        exact List.cons_ne_nil _ _
      · exact absurd rfl h
  | cons word rest ih =>
      simp only [wrap]
      split
      · exact List.cons_ne_nil _ _
      · -- The word is on the current line now, which is not empty with it.
        refine ih (Or.inl (strip_ne_nil.mpr ?_)) fun w hw => hwords w (List.mem_cons_of_mem _ hw)
        rcases hwords word List.mem_cons_self with ⟨c, hc, hspace⟩
        exact ⟨c, List.mem_append_right _ hc, hspace⟩

theorem wrapped_ne_nil {s : Str} {width : Nat} (h : ∃ c ∈ s, ¬ IsSpace c) : wrapped s width ≠ [] :=
  wrap_ne_nil (Or.inr (words_ne_nil h)) fun _ hw => exists_of_mem_words hw

/-- Splitting loses no character but newlines. -/
theorem exists_mem_splitParagraphs {held s : Str} :
    (∃ p ∈ splitParagraphs held s, ∃ c ∈ p, ¬ IsSpace c) ↔ ∃ c ∈ held ++ s, ¬ IsSpace c := by
  fun_induction splitParagraphs held s with
  | case1 held => simp only [List.mem_singleton, exists_eq_left, List.mem_reverse, List.append_nil]
  | case2 held c =>
      simp only [exists_eq_left, List.mem_reverse, List.mem_cons, List.mem_append,
        List.not_mem_nil, or_false]
      simp only [or_comm]
  | case3 held c d rest hbreak ih =>
      have hspace : IsSpace 0x0A := by decide
      rw [List.exists_mem_cons_iff, ih]
      simp only [hbreak.1, hbreak.2, List.mem_reverse, List.mem_append, List.mem_cons,
        List.not_mem_nil, false_or, or_and_right, exists_or, exists_eq_left, hspace, not_true,
        false_or]
  | case4 held c d rest _ ih =>
      rw [ih]
      simp only [List.mem_append, List.mem_cons, or_and_right, exists_or, or_assoc]
      rw [or_left_comm]

theorem paragraphs_ne_nil (s : Str) (width : Nat) :
    ((splitParagraphs [] s).filter (strip · ≠ [])).map (wrapped · width) ≠ [] ↔
      ∃ c ∈ s, ¬ IsSpace c := by
  rw [ne_eq, List.map_eq_nil_iff, List.filter_eq_nil_iff]
  simp only [decide_eq_true_eq, not_forall, exists_prop, not_not, strip_ne_nil]
  exact exists_mem_splitParagraphs

theorem ne_nil_of_mem_paragraphs (s : Str) (width : Nat) :
    ∀ p ∈ ((splitParagraphs [] s).filter (strip · ≠ [])).map (wrapped · width), p ≠ [] := by
  intro p hp
  rcases List.mem_map.mp hp with ⟨paragraph, hparagraph, rfl⟩
  exact wrapped_ne_nil (strip_ne_nil.mp (of_decide_eq_true (List.mem_filter.mp hparagraph).2))

/-- A description is laid out as a docstring exactly if it is a text that is not all blank,
    or none. -/
theorem settles_textLines {Q : Prop} {described : Option (Value N)} {indent : Str} :
    Settles (fun _ => Q) (textLines described indent) ↔ Textable described ∧ Q := by
  unfold textLines Textable
  cases described with
  | none => exact ⟨fun h => ⟨nofun, h⟩, And.right⟩
  | some v =>
      simp only [Option.mem_some_iff, forall_eq']
      by_cases htruthy : v.truthy
      · rw [if_neg (not_not_intro htruthy)]
        cases v with
        | scalar s =>
            cases s with
            | text s =>
                have hparts := paragraphs_ne_nil s (width - indent.length - quotes.length)
                have hlines := ne_nil_of_mem_paragraphs s (width - indent.length - quotes.length)
                -- What is said of the paragraphs is all that is used of them from here.
                simp only []
                generalize ((splitParagraphs [] s).filter (strip · ≠ [])).map
                  (wrapped · (width - indent.length - quotes.length)) = paragraphs at hparts hlines
                have hs : (True → ∃ s', Value.scalar (.text s) = (.scalar (.text s') : Value N) ∧
                    ∃ c ∈ s', ¬ IsSpace c) ↔ paragraphs ≠ [] := by
                  rw [hparts]
                  refine ⟨fun h => ?_, fun h _ => ⟨s, rfl, h⟩⟩
                  rcases h trivial with ⟨_, heq, hblank⟩
                  cases heq
                  exact hblank
                rw [eq_true htruthy, hs]
                cases paragraphs with
                | nil => exact ⟨False.elim, fun h => h.1 rfl⟩
                | cons first others =>
                    cases first with
                    | nil => exact absurd rfl (hlines [] List.mem_cons_self)
                    | cons line lines =>
                        cases lines <;> cases others <;>
                          exact ⟨fun h => ⟨List.cons_ne_nil _ _, h⟩, And.right⟩
            | _ =>
                refine ⟨False.elim, fun h => ?_⟩
                rcases h.1 htruthy with ⟨_, heq, _⟩
                cases heq
        | seq | map | set =>
            refine ⟨False.elim, fun h => ?_⟩
            rcases h.1 htruthy with ⟨_, heq, _⟩
            cases heq
      · rw [if_pos htruthy]
        exact ⟨fun h => ⟨fun htrue => absurd htrue htruthy, h⟩, And.right⟩

/-- A description is laid out as comments exactly if it is a text, or binary, or none. -/
theorem settles_comments {b : Builtins N} {Q : Prop} {described : Option (Value N)}
    {indent : Str} :
    Settles (fun _ => Q) (comments b described indent) ↔ Commentable described ∧ Q := by
  unfold comments Commentable
  cases described with
  | none => exact ⟨fun h => ⟨nofun, h⟩, And.right⟩
  | some v =>
      simp only [Option.mem_some_iff, forall_eq']
      by_cases htruthy : v.truthy
      · rw [if_neg (not_not_intro htruthy)]
        cases v with
        | scalar s =>
            cases s with
            | text s => exact ⟨fun h => ⟨fun _ => Or.inl ⟨s, rfl⟩, h⟩, And.right⟩
            | bytes bytes => exact ⟨fun h => ⟨fun _ => Or.inr ⟨bytes, rfl⟩, h⟩, And.right⟩
            | _ =>
                refine ⟨False.elim, fun h => ?_⟩
                rcases h.1 htruthy with ⟨_, heq⟩ | ⟨_, heq⟩ <;> cases heq
        | seq | map | set =>
            refine ⟨False.elim, fun h => ?_⟩
            rcases h.1 htruthy with ⟨_, heq⟩ | ⟨_, heq⟩ <;> cases heq
      · rw [if_pos htruthy]
        exact ⟨fun h => ⟨fun htrue => absurd htrue htruthy, h⟩, And.right⟩

/-- A value some member can be named by: what is left of it begins, and not with a
    digit. -/
def Usable (s : Str) : Prop :=
  ∃ c ∈ (collapsed false s).head?, ¬ IsDigit (upperAscii c)

theorem settles_memberName {b : Builtins N} {Q : Prop} {value : Value N} {place : Str} :
    Settles (fun _ => Q) (memberName b value place) ↔
      ∃ s, value = .scalar (.text s) ∧ (Usable s → Q) := by
  cases value with
  | scalar s =>
      cases s with
      | text s =>
          simp only [memberName, Value.scalar.injEq, Scalar.text.injEq, exists_eq_left', Usable]
          -- A name is what is left of the text, and must not begin with a digit.
          cases collapsed false s with
          | nil => exact ⟨fun _ h => absurd h nofun, fun _ => trivial⟩
          | cons c rest =>
              simp only [List.map_cons, List.head?_cons, Option.mem_some_iff, exists_eq_left']
              by_cases hdigit : IsDigit (upperAscii c)
              · rw [if_pos hdigit]
                exact ⟨fun _ h => absurd hdigit h, fun _ => trivial⟩
              · rw [if_neg hdigit]
                exact ⟨fun h _ => h, fun h => h hdigit⟩
      | _ => exact ⟨False.elim, fun ⟨_, h, _⟩ => absurd h nofun⟩
  | seq | map | set => exact ⟨False.elim, fun ⟨_, h, _⟩ => absurd h nofun⟩

theorem settles_errorName {b : Builtins N} {Q : Prop} {code : Value N} :
    Settles (fun _ => Q) (errorName b code) ↔ (∃ s, code = .scalar (.text s)) ∧ Q := by
  cases code with
  | scalar s =>
      cases s with
      | text s => exact ⟨fun h => ⟨⟨s, rfl⟩, h⟩, And.right⟩
      | _ => exact ⟨False.elim, fun ⟨⟨_, h⟩, _⟩ => absurd h nofun⟩
  | seq | map | set => exact ⟨False.elim, fun ⟨⟨_, h⟩, _⟩ => absurd h nofun⟩

end Layout

end Codegen

end ClaimTriage
