import ClaimTriage.Codegen.Faithful
import ClaimTriage.Theory.Formatted
import Mathlib.Data.List.DropRight

/-!
# Calls

What a generated method sends: its path, and its headers.

A parameter is declared under a name, and the method has an argument for it,
named by what is left of that name: its words, in small letters, with underscores
between them. The path is a formatted literal with the text of the template in
it, where what stood in a placeholder has become a call that quotes the value of
what goes by that very name. So the placeholder and the argument agree only if
the name is its own words. A name of another kind is left in its braces, where
the language reads it as an expression, and so it reads every brace of the
template. The arguments of a method are named one by one, and nobody looks
whether two have come out the same, or one as a function that the call uses. A
header is a keyword of the call, and there is one keyword for each.

## Main definitions

* `nameWords`: The words of a name.
* `Plain`, `Callable`: A name that is its own words, and words that can name an
  argument.
* `quoteCall`, `exchanged`: What stands in a placeholder of the path.
* `Worded`, `Reads`: What is used of the language.
* `Rendered`, `Sent`: A method sends what its operation declares, and is in the
  client.
* `Sendable`: The operation declares what can be sent.

## Theorems

* `headerName_eq`: An argument is named by words.
* `renamed_placeholders`: The path is its template, but for the names.
* `pathRendered_iff`, `argumentsApart_iff`, `headersSent_iff`: When the path, the
  arguments and the headers come out right.
* `rendered_iff`: When all of a method does.
-/

namespace ClaimTriage

namespace Codegen

open Theory Text Numeral Failing Yaml

open Lexis (Tables Identifier Verbatim readLiteral IsName holes Renamed formattedFields)

/-! ### Words -/

/-- The words of a name: its runs of letters and digits, in small letters. -/
def nameWords (s : Str) : List Str :=
  (runs s).map (·.map lowerAscii)

section Intercalate

variable {parts : List Str}

theorem intercalate_cons (h : parts ≠ []) (part : Str) :
    [underscore].intercalate (part :: parts) =
      part ++ underscore :: [underscore].intercalate parts := by
  rw [List.intercalate_cons_of_ne_nil h, List.append_assoc, List.singleton_append]

theorem intercalate_concat (h : parts ≠ []) (part : Str) :
    [underscore].intercalate (parts ++ [part]) =
      [underscore].intercalate parts ++ underscore :: part := by
  induction parts with
  | nil => exact absurd rfl h
  | cons first parts ih =>
      cases parts with
      | nil =>
          rw [List.singleton_append, intercalate_cons (List.cons_ne_nil _ _),
            List.intercalate_singleton, List.intercalate_singleton]
      | cons second parts =>
          have hne : second :: parts ++ [part] ≠ [] := List.cons_ne_nil _ _
          rw [List.cons_append, intercalate_cons hne first, ih (List.cons_ne_nil _ _),
            intercalate_cons (List.cons_ne_nil second parts) first, List.append_assoc,
            List.cons_append]

theorem reverse_intercalate :
    ([underscore].intercalate parts).reverse =
      [underscore].intercalate (parts.map List.reverse).reverse := by
  induction parts with
  | nil => rfl
  | cons part parts ih =>
      rw [List.map_cons, List.reverse_cons]
      by_cases hnil : parts = []
      · subst hnil
        rw [List.map_nil, List.reverse_nil, List.nil_append, List.intercalate_singleton,
          List.intercalate_singleton]
      · have hne : (parts.map List.reverse).reverse ≠ [] := by
          simpa only [ne_eq, List.reverse_eq_nil_iff, List.map_eq_nil_iff] using hnil
        rw [intercalate_cons hnil, intercalate_concat hne, ← ih, List.reverse_append,
          List.reverse_cons, List.append_assoc, List.singleton_append]

/-- What is dropped of a text are the parts without anything in them. -/
theorem dropWhile_intercalate (h : ∀ part ∈ parts, underscore ∉ part) :
    ([underscore].intercalate parts).dropWhile (· = underscore) =
      [underscore].intercalate (parts.dropWhile (· = [])) := by
  induction parts with
  | nil => rfl
  | cons part parts ih =>
      cases part with
      | nil =>
          -- Nothing is before the first underscore, so it goes with the part.
          rw [List.dropWhile_cons_of_pos (by decide)]
          by_cases hnil : parts = []
          · subst hnil
            rfl
          · rw [intercalate_cons hnil, List.nil_append, List.dropWhile_cons_of_pos (by decide)]
            exact ih fun part hpart => h part (List.mem_cons_of_mem _ hpart)
      | cons c part =>
          have hc : ¬ decide (c = underscore) = true := fun heq =>
            h _ List.mem_cons_self (of_decide_eq_true heq ▸ List.mem_cons_self)
          have hpart : ¬ decide (c :: part = []) = true := fun heq =>
            List.cons_ne_nil _ _ (of_decide_eq_true heq)
          rw [List.dropWhile_cons_of_neg (p := (· = [])) hpart]
          by_cases hnil : parts = []
          · rw [hnil, List.intercalate_singleton]
            exact List.dropWhile_cons_of_neg hc
          · rw [intercalate_cons hnil]
            exact List.dropWhile_cons_of_neg hc

theorem dropWhile_empty {before after : List Str} (hbefore : ∀ part ∈ before, part = [])
    (hne : parts ≠ []) (h : ∀ part ∈ parts, part ≠ []) :
    (before ++ (parts ++ after)).dropWhile (· = []) = parts ++ after := by
  rw [List.dropWhile_append_of_pos fun part hpart => decide_eq_true (hbefore part hpart)]
  rcases List.exists_cons_of_ne_nil hne with ⟨first, others, rfl⟩
  have hfirst : ¬ decide (first = []) = true := fun heq =>
    h _ List.mem_cons_self (of_decide_eq_true heq)
  exact List.dropWhile_cons_of_neg (p := (· = [])) hfirst

theorem underscore_notMem_parts {before after : List Str} (hbefore : ∀ part ∈ before, part = [])
    (hafter : ∀ part ∈ after, part = []) (h : ∀ part ∈ parts, underscore ∉ part) :
    ∀ part ∈ before ++ (parts ++ after), underscore ∉ part := by
  intro part hpart
  rcases List.mem_append.mp hpart with hpart | hpart
  · rw [hbefore part hpart]
    exact List.not_mem_nil
  · rcases List.mem_append.mp hpart with hpart | hpart
    · exact h part hpart
    · rw [hafter part hpart]
      exact List.not_mem_nil

/-- A text is stripped of its empty parts at either end. -/
theorem strip_intercalate {before after : List Str} (hbefore : ∀ part ∈ before, part = [])
    (hafter : ∀ part ∈ after, part = []) (h : ∀ part ∈ parts, underscore ∉ part ∧ part ≠ []) :
    (([underscore].intercalate (before ++ (parts ++ after))).dropWhile
      (· = underscore)).rdropWhile (· = underscore) = [underscore].intercalate parts := by
  have hall := underscore_notMem_parts hbefore hafter fun part hpart => (h part hpart).1
  rw [dropWhile_intercalate hall]
  by_cases hnil : parts = []
  · subst hnil
    have hnone : (before ++ ([] ++ after)).dropWhile (· = []) = [] := by
      refine List.dropWhile_eq_nil_iff.mpr fun part hpart => decide_eq_true ?_
      rcases List.mem_append.mp hpart with hpart | hpart
      · exact hbefore part hpart
      · exact hafter part hpart
    rw [hnone]
    rfl
  · rw [dropWhile_empty hbefore hnil fun part hpart => (h part hpart).2]
    -- From the other end the parts are the same, each read backwards.
    have hbackwards : ((parts ++ after).map List.reverse).reverse =
        (after.map List.reverse).reverse ++ ((parts.map List.reverse).reverse ++ []) := by
      rw [List.map_append, List.reverse_append, List.append_nil]
    have hafter' : ∀ part ∈ (after.map List.reverse).reverse, part = [] := by
      intro part hpart
      rcases List.mem_map.mp (List.mem_reverse.mp hpart) with ⟨original, horiginal, rfl⟩
      rw [hafter original horiginal, List.reverse_nil]
    have hparts : ∀ part ∈ (parts.map List.reverse).reverse, underscore ∉ part ∧ part ≠ [] := by
      intro part hpart
      rcases List.mem_map.mp (List.mem_reverse.mp hpart) with ⟨original, horiginal, rfl⟩
      rw [List.mem_reverse, ne_eq, List.reverse_eq_nil_iff]
      exact h original horiginal
    have hnone : ∀ part ∈ ([] : List Str), part = [] := fun _ h => absurd h List.not_mem_nil
    have hall' := underscore_notMem_parts hafter' hnone fun part hpart => (hparts part hpart).1
    have hne : (parts.map List.reverse).reverse ≠ [] := by
      simpa only [ne_eq, List.reverse_eq_nil_iff, List.map_eq_nil_iff] using hnil
    rw [List.rdropWhile, reverse_intercalate, hbackwards, dropWhile_intercalate hall',
      dropWhile_empty hafter' hne fun part hpart => (hparts part hpart).2, reverse_intercalate,
      List.append_nil, List.map_reverse, List.reverse_reverse, List.map_map,
      List.reverse_involutive.comp_self, List.map_id]

end Intercalate

/-- The runs of a text have its letters and digits, and nothing else. -/
theorem flatten_runs (s : Str) : (runs s).flatten = s.filter isAlphanumeric := by
  fun_induction runs s with
  | case1 => rfl
  | case2 c hc => rw [List.filter_cons_of_pos hc]; rfl
  | case3 c hc => rw [List.filter_cons_of_neg hc]; rfl
  | case4 c d rest hc hd ih =>
      -- The character joins the run after it, which there is.
      rcases runs_ne_nil hd rest with ⟨run, others, hruns⟩
      rw [hruns] at ih
      rw [List.filter_cons_of_pos hc, ← ih, hruns]
      rfl
  | case5 c d rest hc hd ih =>
      rw [List.filter_cons_of_pos hc, ← ih]
      rfl
  | case6 c d rest hc ih => rw [List.filter_cons_of_neg hc, ih]

theorem isAlphanumeric_of_mem_runs {s run : Str} {c : CodePoint} (h : run ∈ runs s)
    (hc : c ∈ run) : isAlphanumeric c = true := by
  have hmem : c ∈ (runs s).flatten := List.mem_flatten_of_mem h hc
  rw [flatten_runs] at hmem
  exact (List.mem_filter.mp hmem).2

theorem isAlphanumeric_lowerAscii (c : CodePoint) :
    isAlphanumeric (lowerAscii c) = isAlphanumeric c := by
  have h : (0x30 ≤ (lowerAscii c).val ∧ (lowerAscii c).val ≤ 0x39 ∨
      0x41 ≤ (lowerAscii c).val ∧ (lowerAscii c).val ≤ 0x5A ∨
      0x61 ≤ (lowerAscii c).val ∧ (lowerAscii c).val ≤ 0x7A) ↔
      (0x30 ≤ c.val ∧ c.val ≤ 0x39 ∨ 0x41 ≤ c.val ∧ c.val ≤ 0x5A ∨
        0x61 ≤ c.val ∧ c.val ≤ 0x7A) := by
    rw [val_lowerAscii]
    split <;> omega
  exact decide_eq_decide.mpr h

/-- The words of a name are not empty, and are of letters and digits. -/
theorem of_mem_nameWords {s word : Str} (h : word ∈ nameWords s) :
    word ≠ [] ∧ ∀ c ∈ word, isAlphanumeric c = true := by
  rcases List.mem_map.mp h with ⟨run, hrun, rfl⟩
  refine ⟨mt List.map_eq_nil_iff.mp (ne_nil_of_mem_runs hrun), fun c hc => ?_⟩
  rcases List.mem_map.mp hc with ⟨d, hd, rfl⟩
  rw [isAlphanumeric_lowerAscii]
  exact isAlphanumeric_of_mem_runs hrun hd

theorem underscore_notMem {word : Str} (h : ∀ c ∈ word, isAlphanumeric c = true) :
    underscore ∉ word :=
  fun hmem => Bool.noConfusion (underscore_not_alphanumeric.symm.trans (h _ hmem))

theorem map_intercalate (parts : List Str) :
    ([underscore].intercalate parts).map lowerAscii =
      [underscore].intercalate (parts.map (·.map lowerAscii)) := by
  induction parts with
  | nil => rfl
  | cons part parts ih =>
      by_cases hnil : parts = []
      · subst hnil
        rw [List.map_cons, List.map_nil, List.intercalate_singleton, List.intercalate_singleton]
      · rw [List.map_cons, intercalate_cons hnil,
          intercalate_cons (mt List.map_eq_nil_iff.mp hnil), ← ih, List.map_append, List.map_cons]
        rfl

/-- An argument's name is what is collapsed, stripped and made small. -/
theorem headerName_eq_map (s : Str) :
    headerName s = (((collapsed false s).dropWhile (· = underscore)).rdropWhile
      (· = underscore)).map lowerAscii :=
  rfl

/-- An argument is named by the words of its parameter's name. -/
theorem headerName_eq (s : Str) : headerName s = [underscore].intercalate (nameWords s) := by
  by_cases hnil : s = []
  · subst hnil
    rfl
  · -- What is collapsed is its runs with underscores between them, and one at either end
    -- where another character is there, which is stripped.
    have hparts : collapsed false s = [underscore].intercalate
        ((if false = false ∧ Leads s then [[]] else []) ++ (runs s ++ afterRuns s)) := by
      rw [← List.append_assoc, ← splitOn_collapsed false hnil, List.intercalate_splitOn]
    have hbefore : ∀ part ∈ (if false = false ∧ Leads s then [[]] else ([] : List Str)),
        part = [] := by
      split <;> simp
    have hafter : ∀ part ∈ afterRuns s, part = [] := by
      unfold afterRuns
      split <;> simp
    have hruns : ∀ run ∈ runs s, underscore ∉ run ∧ run ≠ [] := fun run hrun =>
      ⟨underscore_notMem fun c => isAlphanumeric_of_mem_runs hrun, ne_nil_of_mem_runs hrun⟩
    have hstripped := strip_intercalate hbefore hafter hruns
    rw [← hparts] at hstripped
    rw [headerName_eq_map, hstripped, map_intercalate]
    rfl

/-- The words of a name are found in the argument's. -/
theorem filter_splitOn_headerName (s : Str) :
    ((headerName s).splitOn underscore).filter (· ≠ []) = nameWords s := by
  rw [headerName_eq]
  by_cases hnil : nameWords s = []
  · rw [hnil]
    decide
  · rw [List.splitOn_intercalate underscore
      (fun word hword => underscore_notMem (of_mem_nameWords hword).2) hnil]
    exact List.filter_eq_self.mpr fun word hword => decide_eq_true (of_mem_nameWords hword).1

/-- Two names have one argument exactly if they have the same words. -/
theorem headerName_eq_iff {s t : Str} :
    headerName s = headerName t ↔ nameWords s = nameWords t := by
  constructor
  · intro h
    rw [← filter_splitOn_headerName, h, filter_splitOn_headerName]
  · intro h
    rw [headerName_eq, headerName_eq, h]

/-- A name and its argument's have as many letters and digits. -/
theorem length_filter_headerName (s : Str) :
    ((headerName s).filter isAlphanumeric).length = (s.filter isAlphanumeric).length := by
  have hparts : ∀ parts : List Str, ([underscore].intercalate parts).filter isAlphanumeric =
      parts.flatten.filter isAlphanumeric := by
    intro parts
    induction parts with
    | nil => rfl
    | cons part parts ih =>
        by_cases hnil : parts = []
        · subst hnil
          rw [List.intercalate_singleton, List.flatten_singleton]
        · rw [intercalate_cons hnil, List.filter_append,
            List.filter_cons_of_neg (by rw [underscore_not_alphanumeric]; exact Bool.false_ne_true),
            ih, List.flatten_cons, List.filter_append]
  have hlower : isAlphanumeric ∘ lowerAscii = isAlphanumeric :=
    funext isAlphanumeric_lowerAscii
  rw [headerName_eq, hparts, nameWords, ← List.map_flatten, List.filter_map, hlower,
    List.length_map, flatten_runs, List.filter_filter]
  simp only [Bool.and_self]

/-! ### Names that are their own words -/

/-- A small letter or a digit. -/
def IsSmall (c : CodePoint) : Prop :=
  (0x61 ≤ c.val ∧ c.val ≤ 0x7A) ∨ (0x30 ≤ c.val ∧ c.val ≤ 0x39)

/-- A name of small letters and digits, with single underscores between some of
    them. -/
def Plain (s : Str) : Prop :=
  ∀ part ∈ s.splitOn underscore, part ≠ [] ∧ ∀ c ∈ part, IsSmall c

/-- Words that make an identifier: they begin with a letter, and are no keyword
    together. -/
def Callable (words : List Str) : Prop :=
  (∃ word ∈ words.head?, ∃ c ∈ word.head?, ¬ IsDigit c) ∧
    [underscore].intercalate words ∉ Lexis.keywords

theorem IsSmall.lt {c : CodePoint} (h : IsSmall c) : c.val < 0x80 := by
  rcases h with h | h <;> omega

theorem IsSmall.isAlphanumeric {c : CodePoint} (h : IsSmall c) : isAlphanumeric c = true :=
  decide_eq_true (h.elim (fun h => Or.inr (Or.inr h)) Or.inl)

theorem IsSmall.lowerAscii_eq {c : CodePoint} (h : IsSmall c) : lowerAscii c = c := by
  refine dif_neg fun hcapital => ?_
  rcases h with h | h <;> omega

theorem isSmall_lowerAscii {c : CodePoint} (h : isAlphanumeric c = true) :
    IsSmall (lowerAscii c) := by
  have hc := of_decide_eq_true h
  unfold IsSmall
  rw [val_lowerAscii]
  split <;> omega

theorem isSmall_of_mem_nameWords {s word : Str} (h : word ∈ nameWords s) :
    ∀ c ∈ word, IsSmall c := by
  rcases List.mem_map.mp h with ⟨run, hrun, rfl⟩
  intro c hc
  rcases List.mem_map.mp hc with ⟨d, hd, rfl⟩
  exact isSmall_lowerAscii (isAlphanumeric_of_mem_runs hrun hd)

theorem of_mem_intercalate {parts : List Str} {c : CodePoint}
    (h : c ∈ [underscore].intercalate parts) : c = underscore ∨ ∃ part ∈ parts, c ∈ part := by
  induction parts with
  | nil => cases h
  | cons part parts ih =>
      by_cases hnil : parts = []
      · rw [hnil, List.intercalate_singleton] at h
        exact Or.inr ⟨part, List.mem_cons_self, h⟩
      · rw [intercalate_cons hnil] at h
        rcases List.mem_append.mp h with h | h
        · exact Or.inr ⟨part, List.mem_cons_self, h⟩
        · rcases List.mem_cons.mp h with rfl | h
          · exact Or.inl rfl
          · rcases ih h with h | ⟨other, hother, hc⟩
            · exact Or.inl h
            · exact Or.inr ⟨other, List.mem_cons_of_mem _ hother, hc⟩

/-- An argument's name has nothing else in it than words. -/
theorem of_mem_headerName {s : Str} {c : CodePoint} (h : c ∈ headerName s) :
    IsSmall c ∨ c = underscore := by
  rw [headerName_eq] at h
  rcases of_mem_intercalate h with rfl | ⟨word, hword, hc⟩
  · exact Or.inr rfl
  · exact Or.inl (isSmall_of_mem_nameWords hword c hc)

theorem normalize_headerName (l : Tables) (s : Str) :
    l.normalize (headerName s) = headerName s := by
  refine l.normalize_of_ascii fun c hc => ?_
  rcases of_mem_headerName hc with h | rfl
  · exact h.lt
  · decide

theorem collapsed_append {part : Str} (h : ∀ c ∈ part, isAlphanumeric c = true) (rest : Str) :
    collapsed false (part ++ rest) = part ++ collapsed false rest := by
  induction part with
  | nil => rfl
  | cons c part ih =>
      rw [List.cons_append, collapsed, if_pos (h c List.mem_cons_self),
        ih fun d hd => h d (List.mem_cons_of_mem _ hd), List.cons_append]

/-- Where single underscores stand between letters and digits, nothing is collapsed. -/
theorem collapsed_intercalate {parts : List Str}
    (h : ∀ part ∈ parts, part ≠ [] ∧ ∀ c ∈ part, isAlphanumeric c = true) :
    collapsed false ([underscore].intercalate parts) = [underscore].intercalate parts := by
  induction parts with
  | nil => rfl
  | cons part parts ih =>
      rcases List.forall_mem_cons.mp h with ⟨⟨_, hpart⟩, hparts⟩
      by_cases hnil : parts = []
      · subst hnil
        have hcollapsed := collapsed_append hpart []
        rw [List.append_nil] at hcollapsed
        rw [List.intercalate_singleton, hcollapsed]
        exact List.append_nil part
      · -- What comes after the underscore is a letter or a digit, so it is not passed over.
        have hwithin : collapsed true ([underscore].intercalate parts) =
            collapsed false ([underscore].intercalate parts) := by
          rcases List.exists_cons_of_ne_nil hnil with ⟨next, others, rfl⟩
          rcases hparts next List.mem_cons_self with ⟨hne, hnext⟩
          rcases List.exists_cons_of_ne_nil hne with ⟨c, rest, rfl⟩
          have hc := hnext c List.mem_cons_self
          cases others with
          | nil => rw [List.intercalate_singleton, collapsed, collapsed, if_pos hc, if_pos hc]
          | cons other others =>
              rw [intercalate_cons (List.cons_ne_nil _ _), List.cons_append, collapsed, collapsed,
                if_pos hc, if_pos hc]
        have hunderscore : ¬ isAlphanumeric underscore = true := by
          rw [underscore_not_alphanumeric]
          exact Bool.false_ne_true
        rw [intercalate_cons hnil, collapsed_append hpart, collapsed, if_neg hunderscore,
          if_neg Bool.false_ne_true, hwithin, ih hparts]

/-- A name is its argument's exactly if it is plain. -/
theorem headerName_eq_self_iff {s : Str} (hs : s ≠ []) : headerName s = s ↔ Plain s := by
  constructor
  · intro h part hpart
    rw [headerName_eq] at h
    have hwords : nameWords s ≠ [] := by
      intro hnil
      rw [hnil] at h
      exact hs h.symm
    rw [← h, List.splitOn_intercalate underscore
      (fun word hword => underscore_notMem (of_mem_nameWords hword).2) hwords] at hpart
    exact ⟨(of_mem_nameWords hpart).1, isSmall_of_mem_nameWords hpart⟩
  · intro h
    have hcollapsed : collapsed false s = s := by
      have hparts := collapsed_intercalate fun part hpart =>
        ⟨(h part hpart).1, fun c hc => ((h part hpart).2 c hc).isAlphanumeric⟩
      rwa [List.intercalate_splitOn] at hparts
    have hnone : ∀ part ∈ ([] : List Str), part = [] := fun _ h => absurd h List.not_mem_nil
    have hstripped := strip_intercalate hnone hnone fun part hpart =>
      ⟨underscore_notMem fun c hc => ((h part hpart).2 c hc).isAlphanumeric, (h part hpart).1⟩
    rw [List.nil_append, List.append_nil, List.intercalate_splitOn] at hstripped
    rw [headerName_eq_map, hcollapsed, hstripped]
    refine (List.map_congr_left fun c hc => ?_).trans (List.map_id s)
    have hparts : [underscore].intercalate (s.splitOn underscore) = s :=
      List.intercalate_splitOn underscore
    rw [← hparts] at hc
    rcases of_mem_intercalate hc with rfl | ⟨part, hpart, hc⟩
    · decide
    · exact ((h part hpart).2 c hc).lowerAscii_eq

/-- A small letter begins an identifier, and a digit does not. -/
theorem starts_iff_of_isSmall (l : Tables) {c : CodePoint} (h : IsSmall c) :
    l.starts c = true ↔ ¬ IsDigit c := by
  rw [l.starts_ascii c h.lt]
  constructor
  · rintro (hletter | rfl) hdigit
    · have hvalue : 0x30 ≤ c.val ∧ c.val ≤ 0x39 := hdigit
      rcases hletter with hletter | hletter <;> omega
    · exact absurd hdigit (by decide)
  · intro hdigit
    rcases h with hletter | hnot
    · exact Or.inl (Or.inr hletter)
    · exact absurd hnot hdigit

theorem continues_of_isSmall (l : Tables) {c : CodePoint} (h : IsSmall c ∨ c = underscore) :
    l.continues c = true := by
  rcases h with h | rfl
  · refine (l.continues_ascii c h.lt).mpr ?_
    rcases h with h | h
    · exact Or.inl (Or.inr h)
    · exact Or.inr (Or.inr h)
  · exact (l.continues_ascii _ (by decide)).mpr (Or.inr (Or.inl rfl))

/-- An argument can be named by a parameter's exactly if its words make an
    identifier. -/
theorem identifier_headerName (l : Tables) (s : Str) :
    Identifier l (headerName s) ↔ Callable (nameWords s) := by
  have hsmall : ∀ c ∈ headerName s, IsSmall c ∨ c = underscore := fun _ => of_mem_headerName
  rw [headerName_eq] at hsmall ⊢
  unfold Callable
  cases hwords : nameWords s with
  | nil => exact ⟨False.elim, fun ⟨⟨_, h, _⟩, _⟩ => absurd h nofun⟩
  | cons word words =>
      have hword : word ∈ nameWords s := hwords ▸ List.mem_cons_self
      rcases List.exists_cons_of_ne_nil (of_mem_nameWords hword).1 with ⟨c, rest, rfl⟩
      have hc : IsSmall c := isSmall_of_mem_nameWords hword c List.mem_cons_self
      obtain ⟨others, hothers⟩ : ∃ others,
          [underscore].intercalate ((c :: rest) :: words) = c :: others := by
        by_cases hnil : words = []
        · exact ⟨rest, by rw [hnil, List.intercalate_singleton]⟩
        · exact ⟨_, intercalate_cons hnil _⟩
      rw [hwords, hothers] at hsmall
      rw [hothers]
      have hcontinues : ∀ d ∈ others, l.continues d = true := fun d hd =>
        continues_of_isSmall l (hsmall d (List.mem_cons_of_mem _ hd))
      have hhead : (∃ word ∈ ((c :: rest) :: words).head?, ∃ d ∈ word.head?, ¬ IsDigit d) ↔
          ¬ IsDigit c := by
        simp only [List.head?_cons, Option.mem_some_iff, exists_eq_left']
      rw [hhead, Identifier, starts_iff_of_isSmall l hc]
      exact and_congr_right fun _ => and_iff_right hcontinues

/-! ### Placeholders -/

/-- The call that quotes the value of an argument. -/
def quoteCall (name : Str) : Str :=
  text "quote(str(" ++ name ++ text "), safe='')"

section Placeholders

variable {N : Type} {b : Builtins N}

/-- What is used of which characters make up words: those of ASCII that do are letters,
    digits and the underscore. -/
def Worded (b : Builtins N) : Prop :=
  ∀ c : CodePoint, c.val < 0x80 → (b.isWord c = true ↔ isAlphanumeric c = true ∨ c = underscore)

/-- What stands in a placeholder of the path for what stood in the template's. -/
def exchanged (b : Builtins N) (name : Str) : Str :=
  if name.all b.isWord then quoteCall name else name

theorem not_isWord_brace (hwords : Worded b) {c : CodePoint} (h : Lexis.IsBrace c) :
    b.isWord c = false := by
  refine eq_false_of_ne_true fun hword => ?_
  rcases h with rfl | rfl
  · exact absurd ((hwords _ (by decide)).mp hword) (by decide)
  · exact absurd ((hwords _ (by decide)).mp hword) (by decide)

theorem quoted_append (name rest : Str) :
    quoted name ++ rest = openBrace :: (quoteCall name ++ closeBrace :: rest) := by
  simp only [quoted, quoteCall, List.cons_append, List.append_assoc, List.nil_append]

theorem placeholders_none_cons (c : CodePoint) (rest : Str) :
    placeholders b none (c :: rest) =
      if c = openBrace then placeholders b (some []) rest else c :: placeholders b none rest := by
  rw [placeholders]

theorem placeholders_some_cons (held rest : Str) (c : CodePoint) :
    placeholders b (some held) (c :: rest) =
      if b.isWord c then placeholders b (some (c :: held)) rest
      else if c = closeBrace ∧ held ≠ [] then quoted held.reverse ++ placeholders b none rest
      else if c = openBrace then openBrace :: held.reverse ++ placeholders b (some []) rest
      else openBrace :: held.reverse ++ c :: placeholders b none rest := by
  rw [placeholders]

/-- What is held of a placeholder ends it, or is left as it is. -/
theorem placeholders_some (hwords : Worded b) (held rest : Str) :
    placeholders b (some held) rest =
      if held.reverse ++ rest.takeWhile b.isWord ≠ [] ∧
          rest[(rest.takeWhile b.isWord).length]? = some closeBrace then
        quoted (held.reverse ++ rest.takeWhile b.isWord) ++
          placeholders b none (rest.drop ((rest.takeWhile b.isWord).length + 1))
      else openBrace :: held.reverse ++ placeholders b none rest := by
  have hopen : b.isWord openBrace = false := not_isWord_brace hwords (Or.inl rfl)
  -- The induction is on what is left, with whatever is held already.
  induction rest generalizing held with
  | nil =>
      rw [if_neg fun h => nomatch h.2]
      exact (List.append_nil (openBrace :: held.reverse)).symm
  | cons c rest ih =>
      rw [placeholders_some_cons, placeholders_none_cons]
      by_cases hword : b.isWord c = true
      · have hne : c ≠ openBrace := by
          rintro rfl
          exact Bool.noConfusion (hopen.symm.trans hword)
        rw [if_pos hword, ih, List.takeWhile_cons_of_pos hword, List.length_cons,
          List.getElem?_cons_succ, List.drop_succ_cons, List.reverse_cons, List.append_assoc,
          List.singleton_append, if_neg hne]
        simp only [List.cons_append, List.append_assoc, List.nil_append]
      · rw [if_neg hword, List.takeWhile_cons_of_neg hword, List.append_nil, List.length_nil,
          List.getElem?_cons_zero, List.drop_succ_cons, List.drop_zero]
        by_cases hend : c = closeBrace ∧ held ≠ []
        · have hheld : held.reverse ≠ [] := by
            rw [ne_eq, List.reverse_eq_nil_iff]
            exact hend.2
          rw [if_pos hend, if_pos ⟨hheld, congrArg some hend.1⟩]
        · have hnot : ¬ (held.reverse ≠ [] ∧ some c = some closeBrace) := by
            rintro ⟨hheld, hc⟩
            refine hend ⟨Option.some.inj hc, ?_⟩
            rwa [ne_eq, List.reverse_eq_nil_iff] at hheld
          -- What was held stays as it is, and another brace begins anew.
          rw [if_neg hend]
          refine Eq.trans ?_ (if_neg hnot).symm
          by_cases hc : c = openBrace
          · rw [if_pos hc, if_pos hc]
          · rw [if_neg hc, if_neg hc]

/-- A brace ends before the next word that another one follows, or is left as it is. -/
theorem placeholders_open (hwords : Worded b) (rest : Str) :
    placeholders b none (openBrace :: rest) =
      if rest.takeWhile b.isWord ≠ [] ∧
          rest[(rest.takeWhile b.isWord).length]? = some closeBrace then
        quoted (rest.takeWhile b.isWord) ++
          placeholders b none (rest.drop ((rest.takeWhile b.isWord).length + 1))
      else openBrace :: placeholders b none rest := by
  rw [placeholders_none_cons, if_pos rfl, placeholders_some hwords]
  rfl

theorem placeholders_append {s : Str} (h : ∀ c ∈ s, ¬ Lexis.IsBrace c) (rest : Str) :
    placeholders b none (s ++ closeBrace :: rest) =
      s ++ closeBrace :: placeholders b none rest := by
  induction s with
  | nil =>
      have hne : closeBrace ≠ openBrace := by decide
      rw [List.nil_append, List.nil_append, placeholders_none_cons, if_neg hne]
  | cons c s ih =>
      have hc : c ≠ openBrace := fun heq => h c List.mem_cons_self (Or.inl heq)
      rw [List.cons_append, placeholders_none_cons, if_neg hc,
        ih fun d hd => h d (List.mem_cons_of_mem _ hd)]
      rfl

theorem isName_quoteCall {name : Str} (h : IsName name) : IsName (quoteCall name) := by
  have hfixed : ((text "quote(str(" ++ text "), safe='')").all (¬ Lexis.IsBrace ·)) = true := by
    decide
  refine ⟨List.append_ne_nil_of_right_ne_nil _ (by decide), fun c hc => ?_⟩
  have hmem := List.all_eq_true.mp hfixed
  rcases List.mem_append.mp hc with hc | hc
  · rcases List.mem_append.mp hc with hc | hc
    · exact of_decide_eq_true (hmem c (List.mem_append_left _ hc))
    · exact h.2 c hc
  · exact of_decide_eq_true (hmem c (List.mem_append_right _ hc))

theorem getElem?_takeWhile_of_not_all {p : CodePoint → Bool} {s : Str} (h : ¬ s.all p = true)
    (rest : Str) : ∃ c ∈ s, (s ++ rest)[((s ++ rest).takeWhile p).length]? = some c := by
  induction s with
  | nil => exact absurd rfl h
  | cons c s ih =>
      by_cases hc : p c = true
      · rw [List.all_cons, hc, Bool.true_and] at h
        rcases ih h with ⟨d, hd, hget⟩
        refine ⟨d, List.mem_cons_of_mem _ hd, ?_⟩
        rw [List.cons_append, List.takeWhile_cons_of_pos hc, List.length_cons,
          List.getElem?_cons_succ, hget]
      · refine ⟨c, List.mem_cons_self, ?_⟩
        rw [List.cons_append, List.takeWhile_cons_of_neg hc]
        rfl

/-- A placeholder whose name is a word is exchanged, and no other is. -/
theorem placeholders_hole (hwords : Worded b) {name : Str} (h : IsName name) (rest : Str) :
    placeholders b none (openBrace :: (name ++ closeBrace :: rest)) =
      openBrace :: (exchanged b name ++ closeBrace :: placeholders b none rest) := by
  have hclose : ¬ b.isWord closeBrace = true := by
    have hnot : b.isWord closeBrace = false := not_isWord_brace hwords (Or.inr rfl)
    rw [hnot]
    exact Bool.false_ne_true
  rw [placeholders_open hwords, exchanged]
  by_cases hall : name.all b.isWord = true
  · have htake : (name ++ closeBrace :: rest).takeWhile b.isWord = name := by
      rw [List.takeWhile_append_of_pos fun c hc => List.all_eq_true.mp hall c hc,
        List.takeWhile_cons_of_neg hclose, List.append_nil]
    have hget : (name ++ closeBrace :: rest)[name.length]? = some closeBrace := by
      rw [List.getElem?_append_right (Nat.le_refl _), Nat.sub_self]
      rfl
    have hdrop : (name ++ closeBrace :: rest).drop (name.length + 1) = rest :=
      Lexis.drop_name name rest
    rw [htake, if_pos ⟨h.1, hget⟩, if_pos hall, quoted_append, hdrop]
  · -- The word ends within the name, before a character that is no brace.
    have hnot : ¬ ((name ++ closeBrace :: rest).takeWhile b.isWord ≠ [] ∧
        (name ++ closeBrace :: rest)[((name ++ closeBrace :: rest).takeWhile b.isWord).length]? =
          some closeBrace) := by
      rintro ⟨_, hget⟩
      rcases getElem?_takeWhile_of_not_all hall (closeBrace :: rest) with ⟨c, hc, hget'⟩
      rw [hget] at hget'
      exact h.2 c hc (Or.inr (Option.some.inj hget').symm)
    rw [if_neg hnot, if_neg hall, placeholders_append h.2]

/-- A brace that encloses no name is left as it is. -/
theorem placeholders_of_nameAt (hwords : Worded b) {c : CodePoint} {rest : Str}
    (h : Lexis.nameAt (c :: rest) = none) :
    placeholders b none (c :: rest) = c :: placeholders b none rest := by
  by_cases hc : c = openBrace
  · subst hc
    have hnot : ¬ (rest.takeWhile b.isWord ≠ [] ∧
        rest[(rest.takeWhile b.isWord).length]? = some closeBrace) := by
      rintro ⟨hne, hget⟩
      have hname : IsName (rest.takeWhile b.isWord) := by
        refine ⟨hne, fun d hd hbrace => ?_⟩
        have hword := List.mem_takeWhile_imp (p := b.isWord) hd
        exact Bool.noConfusion ((not_isWord_brace hwords hbrace).symm.trans hword)
      have hsplit := Lexis.take_append_of_getElem? hget
      rw [← List.prefix_iff_eq_take.mp (List.takeWhile_prefix b.isWord)] at hsplit
      have hat := Lexis.nameAt_eq_some.mpr ⟨hname, _, congrArg (openBrace :: ·) hsplit⟩
      rw [h] at hat
      cases hat
    rw [placeholders_open hwords, if_neg hnot]
  · rw [placeholders_none_cons, if_neg hc]

/-- The path is its template, but for what stands in the placeholders. -/
theorem renamed_placeholders (hwords : Worded b) (s : Str) :
    Renamed (fun m n => n = exchanged b m) s (placeholders b none s) := by
  -- The induction is on the length, as a placeholder is passed over whole.
  obtain ⟨n, hn⟩ : ∃ n, s.length = n := ⟨_, rfl⟩
  induction n using Nat.strong_induction_on generalizing s with
  | h n ih =>
      subst hn
      cases s with
      | nil => exact Renamed.nil
      | cons c rest =>
          cases hname : Lexis.nameAt (c :: rest) with
          | none =>
              rw [placeholders_of_nameAt hwords hname]
              exact Renamed.char hname (ih _ (Nat.lt_succ_self _) rest rfl)
          | some name =>
              rcases Lexis.nameAt_eq_some.mp hname with ⟨hisName, after, heq⟩
              have hlt : after.length < (c :: rest).length := by
                rw [heq, List.length_cons, List.length_append, List.length_cons]
                omega
              have hexchanged : IsName (exchanged b name) := by
                unfold exchanged
                split
                · exact isName_quoteCall hisName
                · exact hisName
              have hrenamed := Renamed.hole (R := fun m n => n = exchanged b m) hisName
                hexchanged rfl (ih _ hlt after rfl)
              rw [heq]
              exact (placeholders_hole hwords hisName after) ▸ hrenamed

end Placeholders

/-! ### What a method sends -/

section Methods

variable {N : Type} (b : Builtins N) (l : Tables) (field : Str → Option Nat)

/-- What is used of the reader of expressions: a name is one, and so is the call that
    quotes its value. -/
structure Reads : Prop where
  name : ∀ name, Identifier l name → ∀ rest, field (name ++ closeBrace :: rest) = some name.length
  call : ∀ name, Identifier l name → ∀ rest,
    field (quoteCall name ++ closeBrace :: rest) = some (quoteCall name).length

/-- The expressions a path has in it: those of a formatted literal, and none where it is
    not formatted. -/
def pathFields : Str → Option (List Str)
  | [] => none
  | c :: rest =>
    if c = ofChar 'f' then formattedFields l field rest
    else (readLiteral l (c :: rest)).map fun _ => []

/-- How a path stands in its call. -/
def pathLine (expression : Str) : Str :=
  text "            " ++ expression ++ text ","

/-- How a parameter is declared. -/
def declarationLine (p : Parameter) : Str :=
  text "        " ++ p.header ++ text ": " ++ p.annotation ++ text ","

/-- How a header stands in its call: as a keyword of its own. -/
def headerLine (p : Parameter) : Str :=
  text "            headers=" ++ openBrace :: text "\"" ++ p.name ++ text "\": " ++ p.header ++
    [closeBrace] ++ text ","

/-- The object a method is of, which is its first argument. -/
def selfName : Str :=
  text "self"

/-- The functions that the call for a placeholder uses. -/
def quoters : List Str :=
  [text "quote", text "str"]

/-- The other arguments of a method, with how they are declared. -/
def arguments (op : Operation N) : List (Str × Str) :=
  op.pathParameters.map (fun p => (p.header, declarationLine p)) ++
    (nonempty op.bodyArgument).toList.map (fun argument => (argument,
      text "        " ++ argument ++ text ": " ++ op.body.getD (text "None") ++ text ",")) ++
    op.headerParameters.map (fun p => (p.header, declarationLine p))

/-- What a call sends as headers, by their names: a keyword is given once, or not at
    all. -/
def headersSent : List Parameter → Option (List (Str × Str))
  | [] => some []
  | [p] =>
    (readLiteral l (Lexis.quote :: (p.name ++ [Lexis.quote]))).map fun key => [(key, p.header)]
  | _ => none

/-- Every placeholder of the path is the quoted value of the argument for the parameter
    with its name, and there is nothing else in the path. No argument, and no model that is
    imported, takes the name of a function that quotes. -/
def PathRendered (models : List Str) (op : Operation N) (source : Str) : Prop :=
  ∀ template, op.path = .text template → ∃ expression fields,
    pathExpression b op = .ok expression ∧ pathLine expression <:+: source ∧
    pathFields l field expression = some fields ∧
    List.Forall₂ (fun name found => ∃ p ∈ op.pathParameters, p.name = name ∧
      found = quoteCall p.header ∧ Identifier l p.header) (holes template) fields ∧
    (fields ≠ [] → ∀ name ∈ (arguments op).map Prod.fst ++ models, l.normalize name ∉ quoters)

/-- No two arguments have one name. -/
def ArgumentsApart (op : Operation N) (source : Str) : Prop :=
  (∀ argument ∈ arguments op, argument.2 <:+: source) ∧
    (selfName :: (arguments op).map fun argument => l.normalize argument.1).Nodup

/-- Every header is sent under its own name. -/
def HeadersSent (op : Operation N) (source : Str) : Prop :=
  (∀ p ∈ op.headerParameters, headerLine p <:+: source) ∧
    ∃ sent, headersSent l op.headerParameters = some sent ∧
      ∀ p ∈ op.headerParameters, (p.name, p.header) ∈ sent ∧ Identifier l p.header

/-- A method sends what its operation declares. -/
def Rendered (models : List Str) (op : Operation N) (source : Str) : Prop :=
  PathRendered b l field models op source ∧ ArgumentsApart l op source ∧ HeadersSent l op source

/-- A client has a method for an operation that sends what the operation declares. -/
def Sent (client : Str) (ops : List (Operation N)) (op : Operation N) : Prop :=
  ∃ source, methodSource b op = .ok source ∧ source <:+: client ∧
    Rendered b l field (clientModels ops) op source

/-! ### What can be sent -/

/-- The parameters of an operation. -/
def declared (op : Operation N) : List Parameter :=
  op.pathParameters ++ op.headerParameters

/-- What the schema of an operation's body is called as an argument. -/
def bodyName (op : Operation N) : Option Str :=
  nonempty ((nonempty op.body).map (snake b))

/-- Nothing an operation declares goes by a name. -/
def Avoids (op : Operation N) (name : Str) : Prop :=
  (∀ p ∈ declared op, nameWords p.name ≠ [name]) ∧ ∀ body ∈ bodyName b op, l.normalize body ≠ name

/-- Every placeholder has a plain name that can be an argument's, and a parameter with
    it. Where there are parameters, the template reads as a formatted literal whose
    expressions are its placeholders, and where there are placeholders, nothing goes by the
    name of a function that quotes. -/
def PathTold (models : List Str) (op : Operation N) : Prop :=
  ∀ template, op.path = .text template →
    (∀ name ∈ holes template, Plain name ∧ Callable (nameWords name) ∧
      ∃ p ∈ op.pathParameters, p.name = name) ∧
    (op.pathParameters ≠ [] → formattedFields l field
      (Lexis.quote :: (template ++ [Lexis.quote])) = some (holes template)) ∧
    (holes template ≠ [] → ∀ quoter ∈ quoters,
      Avoids b l op quoter ∧ ∀ model ∈ models, l.normalize model ≠ quoter)

/-- No two parameters have the same words, or a parameter those of the body's schema, and
    nothing goes by the name of the object. -/
def ArgumentsTold (op : Operation N) : Prop :=
  (declared op).Pairwise (fun p q => nameWords p.name ≠ nameWords q.name) ∧
    (∀ body ∈ bodyName b op, ∀ p ∈ declared op,
      l.normalize body ≠ [underscore].intercalate (nameWords p.name)) ∧
    Avoids b l op selfName

/-- There is at most one header. Its name stands for itself in double quotes, and can be
    an argument's. -/
def HeadersTold (op : Operation N) : Prop :=
  op.headerParameters.length ≤ 1 ∧
    ∀ p ∈ op.headerParameters, Verbatim p.name ∧ Callable (nameWords p.name)

/-- An operation declares what can be sent. -/
def Sendable (models : List Str) (op : Operation N) : Prop :=
  PathTold b l field models op ∧ ArgumentsTold b l op ∧ HeadersTold op

/-- The arguments of an operation are named after what it declares. -/
def NamedAfter (op : Operation N) : Prop :=
  (∀ p ∈ declared op, p.header = headerName p.name) ∧ nonempty op.bodyArgument = bodyName b op

end Methods

section Sending

variable {N : Type} {doc : N → Value N} {b : Builtins N} {l : Tables} {field : Str → Option Nat}
  {op : Operation N}

/-! ### How a method is written -/

/-- What a method is written of is in it. -/
theorem of_methodSource {source : Str} (h : methodSource b op = .ok source) :
    (∃ expression, pathExpression b op = .ok expression ∧ pathLine expression <:+: source) ∧
    (∀ argument ∈ arguments op, argument.2 <:+: source) ∧
    ∀ p ∈ op.headerParameters, headerLine p <:+: source := by
  unfold methodSource at h
  rcases bind_eq_ok.mp h with ⟨described, _, h⟩
  rcases bind_eq_ok.mp h with ⟨expression, hexpression, h⟩
  cases h
  refine ⟨⟨expression, hexpression, infix_joined ?_⟩, fun argument hargument => infix_joined ?_,
    fun p hp => infix_joined ?_⟩
  · simp only [List.mem_append, List.mem_cons, pathLine, true_or, or_true]
  · rcases List.mem_append.mp hargument with hargument | hargument
    · rcases List.mem_append.mp hargument with hargument | hargument
      · rcases List.mem_map.mp hargument with ⟨p, hp, rfl⟩
        have hmem := List.mem_map_of_mem (f := declarationLine) hp
        simp only [List.mem_append]
        tauto
      · rcases List.mem_map.mp hargument with ⟨name, hname, rfl⟩
        rw [Option.mem_toList] at hname
        rw [Option.mem_def.mp hname]
        simp only [List.mem_append, List.mem_singleton, true_or, or_true]
    · rcases List.mem_map.mp hargument with ⟨p, hp, rfl⟩
      have hmem := List.mem_map_of_mem (f := declarationLine) hp
      rw [if_neg (List.ne_nil_of_mem hp)]
      simp only [List.mem_append, List.mem_cons]
      tauto
  · simp only [List.mem_append]
    exact Or.inl (Or.inr (List.mem_map_of_mem (f := headerLine) hp))

/-- A parameter has an argument named after it, wherever it is declared. -/
theorem header_of_parameter {frames : Nat} {node parameters schemas : Value N} {place : Str}
    {p : Parameter} (h : parameter doc b frames node parameters schemas place = .ok p) :
    p.header = headerName p.name := by
  induction frames generalizing node with
  | zero => cases h
  | succ frames ih =>
      rw [parameter] at h
      rcases bind_eq_ok.mp h with ⟨found, _, h⟩
      split at h
      · -- A reference leads to another parameter, with one frame less.
        rcases bind_eq_ok.mp h with ⟨name, _, h⟩
        rcases bind_eq_ok.mp h with ⟨known, _, h⟩
        split at h
        · rcases bind_eq_ok.mp h with ⟨target, _, h⟩
          exact ih h
        · cases h
      · rcases bind_eq_ok.mp h with ⟨location, _, h⟩
        split at h
        · rcases bind_eq_ok.mp h with ⟨schema, _, h⟩
          rcases bind_eq_ok.mp h with ⟨name, _, h⟩
          rcases bind_eq_ok.mp h with ⟨annotated, _, h⟩
          rcases bind_eq_ok.mp h with ⟨required, _, h⟩
          cases h
          rfl
        · cases h

/-- The arguments of every operation that is read are named after what it declares. -/
theorem namedAfter_of_operation {frames : Nat} {node schemas parameters responses : Value N}
    {method place : Str} {path : Scalar}
    (h : operation doc b frames node method path schemas parameters responses place = .ok op) :
    NamedAfter b op := by
  unfold operation at h
  rcases bind_eq_ok.mp h with ⟨operationId, _, h⟩
  cases operationId with
  | none => cases h
  | some operationId =>
      simp only [] at h
      split at h
      · cases h
      · rcases bind_eq_ok.mp h with ⟨nodes, _, h⟩
        rcases bind_eq_ok.mp h with ⟨items, _, h⟩
        rcases bind_eq_ok.mp h with ⟨inPath, hinPath, h⟩
        rcases bind_eq_ok.mp h with ⟨items', _, h⟩
        rcases bind_eq_ok.mp h with ⟨inHeader, hinHeader, h⟩
        rcases bind_eq_ok.mp h with ⟨answers, _, h⟩
        rcases bind_eq_ok.mp h with ⟨success, _, h⟩
        rcases bind_eq_ok.mp h with ⟨body, _, h⟩
        rcases bind_eq_ok.mp h with ⟨answer, _, h⟩
        rcases bind_eq_ok.mp h with ⟨resolved, _, h⟩
        rcases bind_eq_ok.mp h with ⟨schema, _, h⟩
        rcases bind_eq_ok.mp h with ⟨summary, _, h⟩
        rcases bind_eq_ok.mp h with ⟨description, _, h⟩
        rcases bind_eq_ok.mp h with ⟨returned, _, h⟩
        cases h
        -- The parameters are read twice, once for the path and once for the headers.
        have hnamed : ∀ {all : List Parameter} {read : List (Value N)},
            read.mapM (fun node => parameter doc b frames node parameters schemas place) =
              .ok all → ∀ p ∈ all, p.header = headerName p.name := by
          intro all read hread p hp
          rcases exists_of_forall₂ (mapM_eq_ok.mp hread).flip p hp with ⟨node, _, hnode⟩
          exact header_of_parameter hnode
        refine ⟨fun p hp => ?_, rfl⟩
        rcases List.mem_append.mp hp with hp | hp
        · exact hnamed hinPath p (List.mem_filter.mp hp).1
        · exact hnamed hinHeader p (List.mem_filter.mp hp).1

/-- So are those of every operation of a document. -/
theorem namedAfter_of_operations {frames : Nat} {document : Value N} {ops : List (Operation N)}
    (h : operations doc b frames document = .ok ops) (hop : op ∈ ops) : NamedAfter b op := by
  unfold operations at h
  rcases bind_eq_ok.mp h with ⟨components, _, h⟩
  rcases bind_eq_ok.mp h with ⟨schemas, _, h⟩
  rcases bind_eq_ok.mp h with ⟨parameters, _, h⟩
  rcases bind_eq_ok.mp h with ⟨responses, _, h⟩
  rcases bind_eq_ok.mp h with ⟨item, _, h⟩
  rcases bind_eq_ok.mp h with ⟨paths, _, h⟩
  rcases bind_eq_ok.mp h with ⟨found, hfound, h⟩
  cases h
  rcases List.mem_flatten.mp hop with ⟨one, hone, hop⟩
  rcases exists_of_forall₂ (mapM_eq_ok.mp hfound).flip one hone with ⟨path, _, hpath⟩
  simp only [pathOperations] at hpath
  rcases bind_eq_ok.mp hpath with ⟨methods, _, hmethods⟩
  rcases exists_of_forall₂ (mapM_eq_ok.mp hmethods).flip op hop with ⟨⟨key, node⟩, _, hmethod⟩
  cases key with
  | text name =>
      -- Only the methods it knows have operations.
      simp only [] at hmethod
      split at hmethod
      · exact namedAfter_of_operation hmethod
      · cases hmethod
  | _ => cases hmethod

/-- Every operation of a document that is accepted has a method in its client. -/
theorem exists_method {fixed : Fixed} {frames : Nat} {document : Value N} {made : Str × Str}
    {ops : List (Operation N)} (h : sources doc b fixed frames document = .ok made)
    (hops : operations doc b frames document = .ok ops) (hop : op ∈ ops) :
    ∃ source, methodSource b op = .ok source ∧ source <:+: made.2 := by
  unfold sources at h
  rcases bind_eq_ok.mp h with ⟨models, _, h⟩
  rcases bind_eq_ok.mp h with ⟨client, hclient, h⟩
  cases h
  unfold clientSource at hclient
  rw [hops, ok_bind] at hclient
  rcases bind_eq_ok.mp hclient with ⟨classes, _, hclient⟩
  rcases bind_eq_ok.mp hclient with ⟨entries, _, hclient⟩
  rcases bind_eq_ok.mp hclient with ⟨methods, hmethods, hclient⟩
  cases hclient
  rcases exists_mem_of_mapM hmethods hop with ⟨source, hsource, hmade⟩
  refine ⟨source, hmade, ?_⟩
  have hline : text "\n" ++ source ∈ methods.map (text "\n" ++ ·) := List.mem_map_of_mem hsource
  have hmethod : source <:+: text "\n" ++ source := (List.suffix_append _ _).isInfix
  exact hmethod.trans ((infix_joined (List.mem_append_right _ hline)).trans
    ((List.suffix_append _ _).isInfix.trans (List.prefix_append _ _).isInfix))

/-! ### Paths -/

theorem isName_of_identifier {name : Str} (h : Identifier l name) : IsName name := by
  cases name with
  | nil => exact h.elim
  | cons c rest =>
      have hcontinues : ∀ d ∈ c :: rest, l.continues d = true :=
        List.forall_mem_cons.mpr ⟨l.continues_of_starts c h.1, h.2.1⟩
      refine ⟨List.cons_ne_nil _ _, fun d hd hbrace => ?_⟩
      have hword := hcontinues d hd
      rcases hbrace with rfl | rfl
      · exact absurd ((l.continues_ascii _ (by decide)).mp hword) (by decide)
      · exact absurd ((l.continues_ascii _ (by decide)).mp hword) (by decide)

theorem quoteCall_injective {name other : Str} (h : quoteCall name = quoteCall other) :
    name = other :=
  List.append_cancel_left (List.append_cancel_right h)

/-- The call for a name has letters of its own. -/
theorem length_filter_quoteCall (name : Str) :
    ((quoteCall name).filter isAlphanumeric).length =
      (name.filter isAlphanumeric).length + 12 := by
  have hbefore : ((text "quote(str(").filter isAlphanumeric).length = 8 := by decide
  have hafter : ((text "), safe='')").filter isAlphanumeric).length = 4 := by decide
  rw [quoteCall, List.filter_append, List.filter_append, List.length_append, List.length_append,
    hbefore, hafter]
  omega

/-- A placeholder is exchanged for its argument's value exactly if the argument has its
    name. -/
theorem exchanged_eq_iff (hwords : Worded b) {name : Str} :
    exchanged b name = quoteCall (headerName name) ↔ headerName name = name := by
  unfold exchanged
  constructor
  · intro h
    split at h
    · exact (quoteCall_injective h).symm
    · -- A name that is left as it is has not the letters of a call about it.
      have hcount := congrArg (fun s => (s.filter isAlphanumeric).length) h
      simp only [length_filter_quoteCall, length_filter_headerName] at hcount
      omega
  · intro h
    have hall : name.all b.isWord = true := by
      rw [List.all_eq_true]
      intro c hc
      rw [← h] at hc
      rcases of_mem_headerName hc with hsmall | rfl
      · exact (hwords c hsmall.lt).mpr (Or.inl hsmall.isAlphanumeric)
      · exact (hwords _ (by decide)).mpr (Or.inr rfl)
    rw [if_pos hall, h]

/-- What stands in a placeholder is its argument's value exactly if the name is plain, and
    can be an argument's. -/
theorem argument_iff (hwords : Worded b) {name found : Str} (hname : IsName name)
    (hfound : found = exchanged b name) {params : List Parameter}
    (hparams : ∀ p ∈ params, p.header = headerName p.name) :
    (∃ p ∈ params, p.name = name ∧ found = quoteCall p.header ∧ Identifier l p.header) ↔
      Plain name ∧ Callable (nameWords name) ∧ ∃ p ∈ params, p.name = name := by
  rw [hfound, ← headerName_eq_self_iff hname.1]
  constructor
  · rintro ⟨p, hp, rfl, hcall, hidentifier⟩
    rw [hparams p hp] at hcall hidentifier
    exact ⟨(exchanged_eq_iff hwords).mp hcall, (identifier_headerName l _).mp hidentifier, p, hp,
      rfl⟩
  · rintro ⟨hself, hcallable, p, hp, rfl⟩
    refine ⟨p, hp, rfl, ?_⟩
    rw [hparams p hp]
    exact ⟨(exchanged_eq_iff hwords).mpr hself, (identifier_headerName l _).mpr hcallable⟩

/-- A path has the values of its arguments in it, and nothing else, exactly if its template
    has their names in it, and nothing else. -/
theorem fields_iff (hwords : Worded b) (hreads : Reads l field) {params : List Parameter}
    (hparams : ∀ p ∈ params, p.header = headerName p.name) (template : Str) :
    (∃ fields, formattedFields l field
        (Lexis.quote :: (placeholders b none template ++ [Lexis.quote])) = some fields ∧
      List.Forall₂ (fun name found => ∃ p ∈ params, p.name = name ∧
        found = quoteCall p.header ∧ Identifier l p.header) (holes template) fields) ↔
      (∀ name ∈ holes template, Plain name ∧ Callable (nameWords name) ∧
        ∃ p ∈ params, p.name = name) ∧
      formattedFields l field (Lexis.quote :: (template ++ [Lexis.quote])) =
        some (holes template) := by
  have hrenamed := renamed_placeholders hwords template
  have hholes : holes (placeholders b none template) = (holes template).map (exchanged b) := by
    have hmap := map_eq_of_forall₂ (g := id) hrenamed.forall₂_holes fun _ _ h => h
    rwa [List.map_id] at hmap
  have htold : List.Forall₂ (fun name found => ∃ p ∈ params, p.name = name ∧
      found = quoteCall p.header ∧ Identifier l p.header) (holes template)
        (holes (placeholders b none template)) ↔
      ∀ name ∈ holes template, Plain name ∧ Callable (nameWords name) ∧
        ∃ p ∈ params, p.name = name := by
    rw [hholes, List.forall₂_map_right_iff, List.forall₂_same]
    exact forall₂_congr fun name hname =>
      argument_iff hwords (Lexis.isName_of_mem_holes hname) rfl hparams
  constructor
  · rintro ⟨fields, hfields, hall⟩
    have hnames : ∀ found ∈ fields, IsName found := by
      intro found hfound
      rcases exists_of_forall₂ hall.flip found hfound with ⟨_, _, p, _, _, rfl, hidentifier⟩
      exact isName_quoteCall (isName_of_identifier hidentifier)
    -- As many expressions are read as there are placeholders, so they are these.
    have heq : fields = holes (placeholders b none template) :=
      (Lexis.formattedFields_sublist hfields hnames).eq_of_length
        (hall.length_eq.symm.trans hrenamed.forall₂_holes.length_eq)
    subst heq
    refine ⟨htold.mp hall, Lexis.formattedFields_renamed hrenamed.symm hfields fun name hname => ?_⟩
    rcases htold.mp hall name hname with ⟨hplain, hcallable, _⟩
    have hidentifier := (identifier_headerName l name).mpr hcallable
    rw [(headerName_eq_self_iff (Lexis.isName_of_mem_holes hname).1).mpr hplain] at hidentifier
    exact hreads.name name hidentifier
  · rintro ⟨hall, hfields⟩
    have hrelated := htold.mpr hall
    refine ⟨_, Lexis.formattedFields_renamed hrenamed hfields fun found hfound => ?_, hrelated⟩
    rcases exists_of_forall₂ hrelated.flip found hfound with ⟨_, _, p, _, _, rfl, hidentifier⟩
    exact hreads.call p.header hidentifier

theorem forall_arguments (P : Str → Prop) :
    (∀ argument ∈ arguments op, P argument.1) ↔
      (∀ p ∈ declared op, P p.header) ∧ ∀ body ∈ nonempty op.bodyArgument, P body := by
  unfold arguments declared
  simp only [List.forall_mem_append, List.forall_mem_map, Option.mem_toList]
  exact ⟨fun h => ⟨⟨h.1.1, h.2⟩, h.1.2⟩, fun h => ⟨⟨h.1.1, h.2⟩, h.1.2⟩⟩

/-- No argument has a name exactly if nothing that is declared goes by it. -/
theorem avoids_iff (hnamed : NamedAfter b op) {name : Str}
    (hname : (name.splitOn underscore).filter (· ≠ []) = [name]) :
    (∀ argument ∈ arguments op, l.normalize argument.1 ≠ name) ↔ Avoids b l op name := by
  rw [forall_arguments (l.normalize · ≠ name), hnamed.2]
  refine and_congr_left fun _ => forall₂_congr fun p hp => not_congr ?_
  rw [hnamed.1 p hp, normalize_headerName]
  constructor
  · intro h
    rw [← filter_splitOn_headerName, h, hname]
  · intro h
    rw [headerName_eq, h, List.intercalate_singleton]

/-- What a path calls is what quotes exactly if nothing else goes by its name. -/
theorem quoters_iff (hnamed : NamedAfter b op) (models : List Str) :
    (∀ name ∈ (arguments op).map Prod.fst ++ models, l.normalize name ∉ quoters) ↔
      ∀ quoter ∈ quoters, Avoids b l op quoter ∧ ∀ model ∈ models, l.normalize model ≠ quoter := by
  have hquoters : ∀ quoter ∈ quoters, (quoter.splitOn underscore).filter (· ≠ []) = [quoter] := by
    decide
  constructor
  · intro h quoter hquoter
    have hne : ∀ name ∈ (arguments op).map Prod.fst ++ models, l.normalize name ≠ quoter := by
      rintro name hname rfl
      exact h name hname hquoter
    rcases List.forall_mem_append.mp hne with ⟨harguments, hmodels⟩
    rw [List.forall_mem_map] at harguments
    exact ⟨(avoids_iff hnamed (hquoters quoter hquoter)).mp harguments, hmodels⟩
  · intro h name hname hquoter
    rcases List.mem_append.mp hname with hname | hname
    · rcases List.mem_map.mp hname with ⟨argument, hargument, rfl⟩
      exact (avoids_iff hnamed (hquoters _ hquoter)).mpr (h _ hquoter).1 argument hargument rfl
    · exact (h _ hquoter).2 name hname rfl

theorem pathFields_dumpsStr (l : Tables) (field : Str → Option Nat) (s : Str) :
    pathFields l field (Json.dumpsStr s) = some [] := by
  have hquote : Json.quote ≠ ofChar 'f' := by decide
  have hread := Lexis.readLiteral_dumpsStr l s
  rw [Json.dumpsStr, List.cons_append] at hread ⊢
  rw [pathFields, if_neg hquote, hread]
  rfl

/-- A path comes out right exactly if its template can be one. -/
theorem pathRendered_iff (hwords : Worded b) (hreads : Reads l field) (hnamed : NamedAfter b op)
    {models : List Str} {source : Str} (h : methodSource b op = .ok source) :
    PathRendered b l field models op source ↔ PathTold b l field models op := by
  rcases of_methodSource h with ⟨⟨expression, hexpression, hline⟩, _, _⟩
  refine forall₂_congr fun template htemplate => ?_
  unfold pathExpression at hexpression ⊢
  rw [htemplate] at hexpression ⊢
  simp only [hexpression, Except.ok.injEq, exists_and_left, exists_eq_left']
  simp only [hline, true_and]
  by_cases hnone : op.pathParameters = []
  · -- Without parameters the template is a string of JSON, and no expression is in it.
    rw [if_pos hnone] at hexpression
    cases hexpression
    simp only [hnone, pathFields_dumpsStr, Option.some.injEq, exists_eq_left', ne_eq,
      not_true_eq_false, false_implies, true_and, and_true, List.not_mem_nil, false_and,
      exists_false, and_false]
    cases holes template with
    | nil => exact iff_of_true List.Forall₂.nil ⟨nofun, fun h => absurd rfl h⟩
    | cons name others => exact iff_of_false nofun fun h => h.1 name List.mem_cons_self
  · -- With parameters it is a formatted literal with calls in it.
    rw [if_neg hnone] at hexpression
    cases hexpression
    have hfields : pathFields l field (text "f\"" ++ placeholders b none template ++ text "\"") =
        formattedFields l field
          (Lexis.quote :: (placeholders b none template ++ [Lexis.quote])) := rfl
    have hparams : ∀ p ∈ op.pathParameters, p.header = headerName p.name := fun p hp =>
      hnamed.1 p (List.mem_append_left _ hp)
    have hiff := fields_iff hwords hreads hparams template
    rw [← hfields] at hiff
    constructor
    · rintro ⟨fields, hread, hall, hquoted⟩
      rcases hiff.mp ⟨fields, hread, hall⟩ with ⟨hnames, hformatted⟩
      refine ⟨hnames, fun _ => hformatted, fun hne => (quoters_iff hnamed models).mp (hquoted ?_)⟩
      rintro rfl
      exact hne (List.forall₂_nil_right_iff.mp hall)
    · rintro ⟨hnames, hformatted, hquoted⟩
      rcases hiff.mpr ⟨hnames, hformatted hnone⟩ with ⟨fields, hread, hall⟩
      refine ⟨fields, hread, hall, fun hne => (quoters_iff hnamed models).mpr
        (hquoted fun hnil => ?_)⟩
      rw [hnil] at hall
      exact hne (List.forall₂_nil_left_iff.mp hall)

/-! ### Arguments and headers -/

/-- The names of the arguments, those of the parameters last. -/
theorem perm_arguments (hnamed : NamedAfter b op) :
    ((arguments op).map fun argument => l.normalize argument.1).Perm
      ((bodyName b op).toList.map l.normalize ++
        (declared op).map fun p => headerName p.name) := by
  have hheader : (declared op).map (fun p => headerName p.name) =
      (declared op).map fun p => l.normalize p.header :=
    List.map_congr_left fun p hp => by rw [hnamed.1 p hp, normalize_headerName]
  rw [hheader, ← hnamed.2, arguments, declared, List.map_append, List.map_append, List.map_append,
    List.map_map, List.map_map, List.map_map, ← List.append_assoc]
  exact List.Perm.append_right _ List.perm_append_comm

/-- The arguments have names of their own exactly if what is declared tells them
    apart. -/
theorem argumentsApart_iff (hnamed : NamedAfter b op) {source : Str}
    (h : methodSource b op = .ok source) :
    ArgumentsApart l op source ↔ ArgumentsTold b l op := by
  have hself : selfName ∉ ((arguments op).map fun argument => l.normalize argument.1) ↔
      Avoids b l op selfName := by
    rw [← avoids_iff hnamed (by decide), List.mem_map]
    exact ⟨fun hnot argument hargument heq => hnot ⟨argument, hargument, heq⟩,
      fun hall ⟨argument, hargument, heq⟩ => hall argument hargument heq⟩
  have hparameters : ((declared op).map fun p => headerName p.name).Nodup ↔
      (declared op).Pairwise fun p q => nameWords p.name ≠ nameWords q.name := by
    rw [List.Nodup, List.pairwise_map]
    exact List.Pairwise.iff fun _ _ => not_congr headerName_eq_iff
  have hbody : ((bodyName b op).toList.map l.normalize).Nodup := by
    cases bodyName b op <;> simp
  have hapart : (∀ s ∈ (bodyName b op).toList.map l.normalize,
      ∀ t ∈ (declared op).map fun p => headerName p.name, s ≠ t) ↔
      ∀ body ∈ bodyName b op, ∀ p ∈ declared op,
        l.normalize body ≠ [underscore].intercalate (nameWords p.name) := by
    simp only [List.forall_mem_map, Option.mem_toList, Option.mem_def, headerName_eq]
  unfold ArgumentsApart ArgumentsTold
  rw [and_iff_right (of_methodSource h).2.1, List.nodup_cons, hself,
    (perm_arguments hnamed).nodup_iff, List.nodup_append, and_iff_right hbody, hparameters,
    hapart, and_comm, and_assoc]

/-- The headers are sent exactly if there is one at most, with a name that can be
    written. -/
theorem headersSent_iff (hnamed : NamedAfter b op) {source : Str}
    (h : methodSource b op = .ok source) : HeadersSent l op source ↔ HeadersTold op := by
  have hheaders : ∀ p ∈ op.headerParameters, p.header = headerName p.name := fun p hp =>
    hnamed.1 p (List.mem_append_right _ hp)
  unfold HeadersSent HeadersTold
  rw [and_iff_right (of_methodSource h).2.2]
  generalize op.headerParameters = params at hheaders
  -- Of two headers the second would give a keyword again.
  match params with
  | [] => exact iff_of_true ⟨[], rfl, nofun⟩ ⟨Nat.zero_le 1, nofun⟩
  | [p] =>
      have hlength : [p].length ≤ 1 := Nat.le_refl 1
      have hidentifier : Identifier l p.header ↔ Callable (nameWords p.name) := by
        rw [hheaders p List.mem_cons_self, identifier_headerName]
      rw [and_iff_right hlength, List.forall_mem_singleton, ← hidentifier,
        ← Lexis.readLiteral_quoted l]
      simp only [headersSent, List.forall_mem_singleton, Option.map_eq_some_iff]
      constructor
      · rintro ⟨_, ⟨key, hkey, rfl⟩, hmem, hname⟩
        rw [List.mem_singleton, Prod.mk.injEq] at hmem
        exact ⟨hmem.1 ▸ hkey, hname⟩
      · rintro ⟨hread, hname⟩
        exact ⟨_, ⟨p.name, hread, rfl⟩, List.mem_singleton_self _, hname⟩
  | p :: q :: others =>
      refine iff_of_false (fun ⟨_, hsent, _⟩ => absurd hsent nofun) fun hle => ?_
      exact absurd hle.1 (by simp)

theorem sent_iff_sendable (hwords : Worded b) (hreads : Reads l field) {fixed : Fixed}
    {frames : Nat} {document : Value N} {made : Str × Str} {ops : List (Operation N)}
    (h : sources doc b fixed frames document = .ok made)
    (hops : operations doc b frames document = .ok ops) (hop : op ∈ ops) :
    Sent b l field made.2 ops op ↔ Sendable b l field (clientModels ops) op := by
  have hnamed := namedAfter_of_operations hops hop
  rcases exists_method h hops hop with ⟨source, hsource, hheld⟩
  have hrendered : Rendered b l field (clientModels ops) op source ↔
      Sendable b l field (clientModels ops) op :=
    and_congr (pathRendered_iff hwords hreads hnamed hsource)
      (and_congr (argumentsApart_iff hnamed hsource) (headersSent_iff hnamed hsource))
  constructor
  · rintro ⟨other, hother, _, hsent⟩
    cases hsource.symm.trans hother
    exact hrendered.mp hsent
  · exact fun hsendable => ⟨source, hsource, hheld, hrendered.mpr hsendable⟩

/-- A method of a document that is accepted sends what its operation declares exactly if
    that can be sent: every placeholder has a plain name and a parameter with it, the
    template has no other text that is read as anything else, no two arguments are called
    the same or like what the method uses, and there is at most one header, with a name
    that can be written. -/
theorem rendered_iff (doc : N → Value N) (b : Builtins N) (l : Tables)
    (field : Str → Option Nat) (fixed : Fixed) (frames : Nat) (document : Value N)
    (made : Str × Str) (ops : List (Operation N)) (op : Operation N) (hwords : Worded b)
    (hreads : Reads l field) (h : sources doc b fixed frames document = .ok made)
    (hops : operations doc b frames document = .ok ops) (hop : op ∈ ops) :
    Sent b l field made.2 ops op ↔ Sendable b l field (clientModels ops) op :=
  sent_iff_sendable hwords hreads h hops hop

end Sending

/-! ### A method of a document -/

/-- A parameter that is a text. -/
def textParameter (place name : Str) : Tree :=
  .map [(.text (text "name"), .scalar (.text name)), (.text (text "in"), .scalar (.text place)),
    (.text (text "required"), .scalar (.bool true)),
    (.text (text "schema"), .map [(.text (text "type"), .scalar (.text (text "string")))])]

/-- An operation that answers with an error code. -/
def codeOperation (parameters : List Tree) : Tree :=
  .map [(.text (text "operationId"), .scalar (.text (text "get_claim"))),
    (.text (text "parameters"), .seq parameters),
    (.text (text "responses"), .map [(.text (text "200"),
      .map [(.text (text "content"), .map [(.text (text "application/json"),
        .map [(.text (text "schema"), .map [(.text (text "$ref"),
          .scalar (.text (schemaPrefix ++ text "ErrorCode")))])])])])])]

/-- A document of one operation. -/
def callDocument (path : Str) (parameters : List Tree) : Tree :=
  .map [(.text (text "openapi"), .scalar (.text (text "3.1.0"))), (.text (text "info"), .map []),
    (.text (text "paths"), .map [(.text path,
      .map [(.text (text "get"), codeOperation parameters)])]),
    (.text (text "components"), .map [(.text (text "schemas"),
      .map [(.text (text "ErrorCode"), .map (codesSchema [text "not_found"]))])])]

/-- The tables of a language whose words are those of ASCII. -/
def inWords : Builtins Tree :=
  { inAscii with
    isWord := fun c => isAlphanumeric c ∨ c = underscore
    decimal := fun c => if IsDigit c then some (digitVal c) else none }

theorem worded_inWords : Worded inWords := fun _ _ => decide_eq_true_iff

/-- A reader of expressions that have no braces in them. -/
def beforeBrace (s : Str) : Option Nat :=
  some (s.takeWhile (¬ Lexis.IsBrace ·)).length

theorem beforeBrace_name {name : Str} (h : IsName name) (rest : Str) :
    beforeBrace (name ++ closeBrace :: rest) = some name.length :=
  congrArg (some ∘ List.length) (Lexis.takeWhile_name h.2 rest)

theorem reads_beforeBrace (l : Tables) : Reads l beforeBrace where
  name _ h := beforeBrace_name (isName_of_identifier h)
  call _ h := beforeBrace_name (isName_quoteCall (isName_of_identifier h))

/-- A path with a name in words in it, and a header with another name. -/
def keyedDocument : Tree :=
  callDocument (text "/claims/\x7bclaim_id\x7d")
    [textParameter (text "path") (text "claim_id"),
      textParameter (text "header") (text "Idempotency-Key")]

/-- A path with a name in it that has a capital. -/
def camelDocument : Tree :=
  callDocument (text "/claims/\x7bclaimId\x7d") [textParameter (text "path") (text "claimId")]

/-- The parameter of the first, and its header. -/
def keyedParameters : Parameter × Parameter :=
  (⟨text "claim_id", text "path", text "str", true, text "claim_id"⟩,
    ⟨text "Idempotency-Key", text "header", text "str", true, text "idempotency_key"⟩)

/-- An operation with the two can be sent. -/
theorem sendable_keyed {op : Operation Tree}
    (hpath : op.path = .text (text "/claims/\x7bclaim_id\x7d"))
    (hinPath : op.pathParameters = [keyedParameters.1])
    (hinHeader : op.headerParameters = [keyedParameters.2]) (hbody : op.body = none) :
    Sendable inWords Lexis.ascii beforeBrace [text "ErrorCode"] op := by
  have hdeclared : (declared op).map (fun p => nameWords p.name) =
      [[text "claim", text "id"], [text "idempotency", text "key"]] := by
    rw [declared, hinPath, hinHeader]
    decide +kernel
  have hnone : bodyName inWords op = none := by
    rw [bodyName, hbody]
    rfl
  -- Both have two words, so nothing goes by a name of one.
  have havoids : ∀ name, Avoids inWords Lexis.ascii op name := by
    refine fun name => ⟨fun p hp heq => ?_, by rw [hnone]; nofun⟩
    have hmem := List.mem_map_of_mem (f := fun p => nameWords p.name) hp
    rw [hdeclared, heq] at hmem
    simp at hmem
  have hholes : holes (text "/claims/\x7bclaim_id\x7d") = [text "claim_id"] := by decide +kernel
  have hclaim : Callable (nameWords (text "claim_id")) :=
    ⟨⟨_, rfl, _, rfl, by decide⟩, by decide +kernel⟩
  have hkey : Callable (nameWords (text "Idempotency-Key")) :=
    ⟨⟨_, rfl, _, rfl, by decide⟩, by decide +kernel⟩
  refine ⟨?_, ⟨?_, ?_, havoids _⟩, ?_⟩
  · rintro template htemplate
    cases hpath.symm.trans htemplate
    rw [hholes, List.forall_mem_singleton, hinPath]
    refine ⟨⟨?_, hclaim, _, List.mem_cons_self, rfl⟩, fun _ => by decide +kernel,
      fun _ quoter hquoter => ⟨havoids quoter, ?_⟩⟩
    · exact (headerName_eq_self_iff (by decide)).mp (by decide +kernel)
    · rintro model hmodel rfl
      cases List.mem_singleton.mp hmodel
      exact absurd hquoter (by decide +kernel)
  · have hapart : ((declared op).map fun p => nameWords p.name).Pairwise (· ≠ ·) := by
      rw [hdeclared]
      decide +kernel
    exact List.pairwise_map.mp hapart
  · rw [hnone]
    nofun
  · rw [HeadersTold, hinHeader, List.forall_mem_singleton]
    exact ⟨Nat.le_refl 1, by decide +kernel, hkey⟩

/-- The name in words is sent in the path, and the other in a header. -/
theorem rendered_keyed : ∃ made op,
    sources Tree.value inWords ⟨[], [], [], [], [], []⟩ 1000 keyedDocument.value = .ok made ∧
    op.path = .text (text "/claims/\x7bclaim_id\x7d") ∧
    Sent inWords Lexis.ascii beforeBrace made.2 [op] op := by
  have hok : (sources Tree.value inWords ⟨[], [], [], [], [], []⟩ 1000
      keyedDocument.value).isOk := by decide +kernel
  rcases exists_of_isOk hok with ⟨made, hmade⟩
  obtain ⟨op, hops, hpath, hinPath, hinHeader, hbody, hmodels⟩ : ∃ op : Operation Tree,
      operations Tree.value inWords 1000 keyedDocument.value = .ok [op] ∧
      op.path = .text (text "/claims/\x7bclaim_id\x7d") ∧
      op.pathParameters = [keyedParameters.1] ∧ op.headerParameters = [keyedParameters.2] ∧
      op.body = none ∧ clientModels [op] = [text "ErrorCode"] :=
    ⟨_, rfl, rfl, rfl, rfl, rfl, rfl⟩
  refine ⟨made, op, hmade, hpath, (rendered_iff Tree.value inWords Lexis.ascii beforeBrace _ 1000 _
    made [op] op worded_inWords (reads_beforeBrace _) hmade hops List.mem_cons_self).mpr ?_⟩
  rw [hmodels]
  exact sendable_keyed hpath hinPath hinHeader hbody

/-- The argument is called by the name in small letters, and nothing by the name itself. -/
theorem not_rendered_camel :
    ¬ ∀ (b : Builtins Tree) (l : Tables) (field : Str → Option Nat) (fixed : Fixed) (frames : Nat)
      (document : Value Tree) (made : Str × Str) (ops : List (Operation Tree))
      (op : Operation Tree),
      Worded b → Reads l field → sources Tree.value b fixed frames document = .ok made →
      operations Tree.value b frames document = .ok ops → op ∈ ops →
        Sent b l field made.2 ops op := by
  intro h
  have hok : (sources Tree.value inWords ⟨[], [], [], [], [], []⟩ 1000
      camelDocument.value).isOk := by decide +kernel
  rcases exists_of_isOk hok with ⟨made, hmade⟩
  obtain ⟨op, hops, hpath⟩ : ∃ op : Operation Tree,
      operations Tree.value inWords 1000 camelDocument.value = .ok [op] ∧
      op.path = .text (text "/claims/\x7bclaimId\x7d") := ⟨_, rfl, rfl⟩
  have hsent := h inWords Lexis.ascii beforeBrace _ 1000 _ made [op] op worded_inWords
    (reads_beforeBrace _) hmade hops List.mem_cons_self
  have hsendable := (sent_iff_sendable worded_inWords (reads_beforeBrace _) hmade hops
    List.mem_cons_self).mp hsent
  have hholes : text "claimId" ∈ holes (text "/claims/\x7bclaimId\x7d") := by decide +kernel
  -- The name has a capital, and the argument's is small.
  have hplain := ((hsendable.1 _ hpath).1 _ hholes).1
  rw [← headerName_eq_self_iff (by decide)] at hplain
  exact absurd hplain (by decide +kernel)

end Codegen

end ClaimTriage
