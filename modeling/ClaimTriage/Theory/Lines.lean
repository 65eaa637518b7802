import ClaimTriage.Theory.Text
import Mathlib.Data.List.TakeWhile

/-!
# Lines of Text

How a text is divided into lines and what is left of a line without the blanks
around it. What ends a line and what is blank is Unicode's to say and not only
a newline and a space.

## Main definitions

* `IsSpace`: A blank character.
* `IsBreak`: A character that ends a line.
* `splitLines`: The lines of a text.
* `strip`: A text without the blanks around it.
* `compact`: A text without any blank.
* `words`: The words blanks divide a text into.
* `filled`: The lines that are not blank.
* `Trimmed`: A text without a blank at its ends.

## Theorems

* `strip_ne_nil`: Something is left of a text that is not all blank.
* `strip_eq_compact`: A text without a blank inside, the ones around it taken away.
* `flatten_words`: The words of a text are what is not blank in it.
* `compact_intercalate`: And so are words joined by blanks.
* `filled_flatMap`: Texts written one on a line are the lines that are filled.
* `length_filled_flatMap_iff`: And only if none of them holds a break.
-/

namespace Theory

namespace Text

/-- A blank character. -/
def IsSpace (c : CodePoint) : Prop :=
  c.val ∈ [0x09, 0x0A, 0x0B, 0x0C, 0x0D, 0x1C, 0x1D, 0x1E, 0x1F, 0x20, 0x85, 0xA0, 0x1680, 0x2000,
    0x2001, 0x2002, 0x2003, 0x2004, 0x2005, 0x2006, 0x2007, 0x2008, 0x2009, 0x200A, 0x2028, 0x2029,
    0x202F, 0x205F, 0x3000]

instance (c : CodePoint) : Decidable (IsSpace c) :=
  inferInstanceAs (Decidable (_ ∈ _))

/-- A character that ends a line. -/
def IsBreak (c : CodePoint) : Prop :=
  c.val ∈ [0x0A, 0x0B, 0x0C, 0x0D, 0x1C, 0x1D, 0x1E, 0x85, 0x2028, 0x2029]

instance (c : CodePoint) : Decidable (IsBreak c) :=
  inferInstanceAs (Decidable (_ ∈ _))

/-- The lines of a text, the first one begun with what is held already, last
    character first. A text that ends with a break has no line after it. -/
def splitLinesFrom (held : Str) (returned : Bool) : Str → List Str
  | [] => if held = [] then [] else [held.reverse]
  | c :: rest =>
      -- A carriage return and the newline after it end one line.
      if returned ∧ c = 0x0A then splitLinesFrom [] false rest
      else if IsBreak c then held.reverse :: splitLinesFrom [] (c = 0x0D) rest
      else splitLinesFrom (c :: held) false rest

/-- The lines of a text. -/
def splitLines (s : Str) : List Str :=
  splitLinesFrom [] false s

/-- A text without the blanks around it. -/
def strip (s : Str) : Str :=
  (((s.dropWhile (IsSpace ·)).reverse).dropWhile (IsSpace ·)).reverse

theorem dropWhile_ne_nil {s : Str} : s.dropWhile (IsSpace ·) ≠ [] ↔ ∃ c ∈ s, ¬ IsSpace c := by
  rw [ne_eq, List.dropWhile_eq_nil_iff]
  simp only [decide_eq_true_eq, not_forall, exists_prop]

/-- Something is left of a text that is not all blank. -/
theorem strip_ne_nil {s : Str} : strip s ≠ [] ↔ ∃ c ∈ s, ¬ IsSpace c := by
  unfold strip
  rw [ne_eq, List.reverse_eq_nil_iff, ← ne_eq, dropWhile_ne_nil]
  constructor
  · rintro ⟨c, hc, hspace⟩
    exact ⟨c, (List.dropWhile_sublist _).mem (List.mem_reverse.mp hc), hspace⟩
  · intro h
    -- The first character left is no blank.
    have hne := dropWhile_ne_nil.mpr h
    have hhead := List.head_dropWhile_not (fun c => decide (IsSpace c)) hne
    exact ⟨_, List.mem_reverse.mpr (List.head_mem hne), of_decide_eq_false hhead⟩

/-- A text without any blank. -/
def compact (s : Str) : Str :=
  s.filter fun c => ¬ IsSpace c

/-- The words of a text, which blanks divide it into. -/
def words (s : Str) : List Str :=
  (s.splitOnP (IsSpace ·)).filter (· ≠ [])

/-- The words of a text with one space between any two. -/
def spaced (s : Str) : Str :=
  [0x20].intercalate (words s)

theorem not_isSpace_of_mem_compact {s : Str} {c : CodePoint} (h : c ∈ compact s) : ¬ IsSpace c :=
  of_decide_eq_true (List.mem_filter.mp h).2

theorem compact_of_forall {s : Str} (h : ∀ c ∈ s, ¬ IsSpace c) : compact s = s :=
  List.filter_eq_self.mpr fun c hc => decide_eq_true (h c hc)

theorem compact_of_forall_isSpace {s : Str} (h : ∀ c ∈ s, IsSpace c) : compact s = [] :=
  List.filter_eq_nil_iff.mpr fun c hc hspace => of_decide_eq_true hspace (h c hc)

theorem compact_append (s t : Str) : compact (s ++ t) = compact s ++ compact t :=
  List.filter_append _ _

/-- Blanks are only taken away around a text. -/
theorem compact_strip (s : Str) : compact (strip s) = compact s := by
  have hdrop : ∀ s : Str, compact (s.dropWhile (IsSpace ·)) = compact s := by
    intro s
    have hsplit : s.takeWhile (IsSpace ·) ++ s.dropWhile (IsSpace ·) = s :=
      List.takeWhile_append_dropWhile
    have htaken : compact (s.takeWhile (IsSpace ·)) = [] :=
      compact_of_forall_isSpace fun c hc => by
        have hspace := List.mem_takeWhile_imp hc
        exact of_decide_eq_true hspace
    calc compact (s.dropWhile (IsSpace ·))
        = compact (s.takeWhile (IsSpace ·)) ++ compact (s.dropWhile (IsSpace ·)) := by
          rw [htaken, List.nil_append]
      _ = compact s := by rw [← compact_append, hsplit]
  have hreverse : ∀ s : Str, compact s.reverse = (compact s).reverse :=
    fun s => List.filter_reverse
  unfold strip
  rw [hreverse, hdrop, hreverse, hdrop, List.reverse_reverse]

/-- What is left of a text without a blank inside is the text without any. -/
theorem strip_eq_compact {s : Str} (h : ∀ c ∈ strip s, ¬ IsSpace c) : strip s = compact s := by
  rw [← compact_strip, compact_of_forall h]

/-- The words of a text are what is not blank in it. -/
theorem flatten_words (s : Str) : (words s).flatten = compact s := by
  unfold words
  rw [List.flatten_filter_ne_nil]
  induction s with
  | nil => rfl
  | cons c s ih =>
      rw [List.splitOnP_cons_eq_if_modifyHead]
      by_cases hspace : IsSpace c
      · have hcompact : compact (c :: s) = compact s :=
          List.filter_cons_of_neg (by simp [hspace])
        rw [if_pos (decide_eq_true hspace), hcompact]
        exact ih
      · have hcompact : compact (c :: s) = c :: compact s :=
          List.filter_cons_of_pos (by simp [hspace])
        rw [if_neg (by simp [hspace]), hcompact, ← ih]
        -- The first word is the one the character begins.
        cases hwords : s.splitOnP (IsSpace ·) with
        | nil => exact absurd hwords (List.splitOnP_ne_nil _ _)
        | cons first others => rfl

/-- Words joined by blanks are what is not blank in them. -/
theorem compact_intercalate {separator : Str} (hseparator : ∀ c ∈ separator, IsSpace c)
    {parts : List Str} (hparts : ∀ part ∈ parts, ∀ c ∈ part, ¬ IsSpace c) :
    compact (separator.intercalate parts) = parts.flatten := by
  have hblank : compact separator = [] := compact_of_forall_isSpace hseparator
  induction parts with
  | nil => rfl
  | cons part parts ih =>
      rw [List.forall_mem_cons] at hparts
      have hpart : compact part = part := compact_of_forall hparts.1
      cases parts with
      | nil =>
          rw [List.intercalate_singleton, hpart, List.flatten_singleton]
      | cons next others =>
          rw [List.intercalate_cons_cons, compact_append, compact_append, hpart, hblank,
            ih hparts.2, List.append_nil, List.flatten_cons (l := part)]

theorem mem_intercalate {separator : Str} {parts : List Str} {c : CodePoint}
    (h : c ∈ separator.intercalate parts) : c ∈ separator ∨ c ∈ parts.flatten := by
  induction parts with
  | nil => exact absurd h List.not_mem_nil
  | cons part parts ih =>
      cases parts with
      | nil =>
          rw [List.intercalate_singleton] at h
          exact Or.inr (by rwa [List.flatten_singleton])
      | cons next others =>
          rw [List.intercalate_cons_cons, List.append_assoc, List.mem_append,
            List.mem_append] at h
          rw [List.flatten_cons, List.mem_append]
          rcases h with hpart | hseparator | hrest
          · exact Or.inr (Or.inl hpart)
          · exact Or.inl hseparator
          · exact (ih hrest).imp id Or.inr

theorem compact_spaced (s : Str) : compact (spaced s) = compact s := by
  have hspace : ∀ c ∈ ([0x20] : Str), IsSpace c := List.forall_mem_singleton.mpr (by decide)
  have hwords : ∀ word ∈ words s, ∀ c ∈ word, ¬ IsSpace c := by
    intro word hword c hc
    refine not_isSpace_of_mem_compact (s := s) ?_
    rw [← flatten_words]
    exact List.mem_flatten_of_mem hword hc
  unfold spaced
  rw [compact_intercalate hspace hwords, flatten_words]

/-- Words and the spaces between them are all there is of a text's words. -/
theorem mem_spaced {s : Str} {c : CodePoint} (h : c ∈ spaced s) : c = 0x20 ∨ c ∈ compact s := by
  rw [← flatten_words]
  exact (mem_intercalate h).imp List.mem_singleton.mp id

/-! ### Texts written one on a line -/

/-- A text and a newline are the lines of the text, and what follows is lines of its
    own. -/
theorem splitLinesFrom_append (held : Str) (returned : Bool) (s rest : Str) :
    splitLinesFrom held returned (s ++ 0x0A :: rest) =
      splitLinesFrom held returned (s ++ [0x0A]) ++ splitLinesFrom [] false rest := by
  have hbreak : IsBreak 0x0A := by decide
  induction s generalizing held returned with
  | nil =>
      cases returned with
      | true => rfl
      | false => simp [splitLinesFrom, hbreak]
  | cons c s ih =>
      simp only [List.cons_append, splitLinesFrom]
      split
      · exact ih _ _
      · split
        · rw [ih, List.cons_append]
        · exact ih _ _

/-- A text without a break is one line. -/
theorem splitLinesFrom_of_forall {s : Str} (h : ∀ c ∈ s, ¬ IsBreak c) (held : Str) :
    splitLinesFrom held false (s ++ [0x0A]) = [held.reverse ++ s] := by
  have hbreak : IsBreak 0x0A := by decide
  induction s generalizing held with
  | nil => simp [splitLinesFrom, hbreak]
  | cons c s ih =>
      rw [List.forall_mem_cons] at h
      have hnot : ¬ (false = true ∧ c = 0x0A) := nofun
      rw [List.cons_append, splitLinesFrom, if_neg hnot, if_neg h.1, ih h.2, List.reverse_cons,
        List.append_assoc]
      rfl

/-- The lines of a text something is left of when the blanks around it are taken away. -/
def filled (lines : List Str) : List Str :=
  lines.filter fun line => strip line ≠ []

theorem filled_append (lines lines' : List Str) :
    filled (lines ++ lines') = filled lines ++ filled lines' :=
  List.filter_append _ _

theorem filled_cons_of_mem {line : Str} (h : ∃ c ∈ line, ¬ IsSpace c) (lines : List Str) :
    filled (line :: lines) = line :: filled lines :=
  List.filter_cons_of_pos (decide_eq_true (strip_ne_nil.mpr h))

theorem isSpace_of_isBreak {c : CodePoint} (h : IsBreak c) : IsSpace c := by
  have hall : ∀ n ∈ [0x0A, 0x0B, 0x0C, 0x0D, 0x1C, 0x1D, 0x1E, 0x85, 0x2028, 0x2029],
      n ∈ [0x09, 0x0A, 0x0B, 0x0C, 0x0D, 0x1C, 0x1D, 0x1E, 0x1F, 0x20, 0x85, 0xA0, 0x1680, 0x2000,
        0x2001, 0x2002, 0x2003, 0x2004, 0x2005, 0x2006, 0x2007, 0x2008, 0x2009, 0x200A, 0x2028,
        0x2029, 0x202F, 0x205F, 0x3000] := by decide
  exact hall c.val h

/-- Where there is something that is not blank, a line is filled. -/
theorem length_filled_pos {s : Str} (held : Str) (returned : Bool)
    (hheld : returned = true → held = []) (h : ∃ c ∈ held ++ s, ¬ IsSpace c) :
    1 ≤ (filled (splitLinesFrom held returned s)).length := by
  induction s generalizing held returned with
  | nil =>
      rw [List.append_nil] at h
      have hne : held ≠ [] := by
        rintro rfl
        rcases h with ⟨c, hc, _⟩
        exact absurd hc List.not_mem_nil
      rcases h with ⟨c, hc, hspace⟩
      rw [splitLinesFrom, if_neg hne, filled_cons_of_mem ⟨c, List.mem_reverse.mpr hc, hspace⟩]
      exact Nat.le_add_left 1 _
  | cons c s ih =>
      rw [splitLinesFrom]
      split
      · -- The newline that ends a line with the carriage return before it is blank.
        rename_i hnewline
        have hspace : IsSpace c := by
          rw [hnewline.2]
          decide
        rw [hheld hnewline.1] at h
        rcases h with ⟨d, hd, hnot⟩
        rcases List.mem_cons.mp hd with rfl | hd
        · exact absurd hspace hnot
        · exact ih _ _ (fun _ => rfl) ⟨d, hd, hnot⟩
      · split
        · rename_i hbreak
          by_cases hin : ∃ d ∈ held, ¬ IsSpace d
          · rcases hin with ⟨d, hd, hnot⟩
            rw [filled_cons_of_mem ⟨d, List.mem_reverse.mpr hd, hnot⟩]
            exact Nat.le_add_left 1 _
          · rcases h with ⟨d, hd, hnot⟩
            have hrest : d ∈ s := by
              rcases List.mem_append.mp hd with hd | hd
              · exact absurd ⟨d, hd, hnot⟩ hin
              · rcases List.mem_cons.mp hd with rfl | hd
                · exact absurd (isSpace_of_isBreak hbreak) hnot
                · exact hd
            have hone := ih [] (decide (c = 0x0D)) (fun _ => rfl) ⟨d, hrest, hnot⟩
            have hle : (filled (splitLinesFrom [] (decide (c = 0x0D)) s)).length ≤
                (filled (held.reverse :: splitLinesFrom [] (decide (c = 0x0D)) s)).length :=
              ((List.sublist_cons_self _ _).filter _).length_le
            omega
        · rcases h with ⟨d, hd, hnot⟩
          refine ih _ _ nofun ⟨d, ?_, hnot⟩
          rw [List.cons_append, List.mem_cons]
          rcases List.mem_append.mp hd with hd | hd
          · exact Or.inr (List.mem_append_left _ hd)
          · exact (List.mem_cons.mp hd).imp id (List.mem_append_right _)

/-- A break between two things that are not blank leaves two lines that are filled. -/
theorem two_le_length_filled (before : Str) {after held : Str} {c : CodePoint}
    (hheld : ∃ d ∈ held, ¬ IsSpace d) (hc : IsBreak c) (hafter : ∃ d ∈ after, ¬ IsSpace d) :
    2 ≤ (filled (splitLinesFrom held false (before ++ c :: after))).length := by
  have hnot : ∀ d : CodePoint, ¬ (false = true ∧ d = 0x0A) := fun _ => nofun
  have hline : ∃ d ∈ held.reverse, ¬ IsSpace d := by
    rcases hheld with ⟨d, hd, hspace⟩
    exact ⟨d, List.mem_reverse.mpr hd, hspace⟩
  induction before generalizing held with
  | nil =>
      have hone := length_filled_pos (s := after) [] (decide (c = 0x0D)) (fun _ => rfl) hafter
      rw [List.nil_append, splitLinesFrom, if_neg (hnot c), if_pos hc, filled_cons_of_mem hline,
        List.length_cons]
      omega
  | cons d before ih =>
      rw [List.cons_append, splitLinesFrom, if_neg (hnot d)]
      split
      · have hrest : ∃ e ∈ before ++ c :: after, ¬ IsSpace e := by
          rcases hafter with ⟨e, he, hspace⟩
          exact ⟨e, List.mem_append_right _ (List.mem_cons_of_mem _ he), hspace⟩
        have hone := length_filled_pos [] (decide (d = 0x0D)) (fun _ => rfl) hrest
        rw [filled_cons_of_mem hline, List.length_cons]
        exact Nat.succ_le_succ hone
      · rcases hheld with ⟨e, he, hspace⟩
        exact ih ⟨e, List.mem_cons_of_mem _ he, hspace⟩
          ⟨e, List.mem_reverse.mpr (List.mem_cons_of_mem _ he), hspace⟩

/-- There is no blank at either end of a text. -/
def Trimmed (s : Str) : Prop :=
  ∃ a inner b, s = a :: (inner ++ [b]) ∧ ¬ IsSpace a ∧ ¬ IsSpace b

theorem strip_of_trimmed {s : Str} (h : Trimmed s) : strip s = s := by
  rcases h with ⟨a, inner, b, rfl, ha, hb⟩
  have hfirst : (a :: (inner ++ [b])).dropWhile (IsSpace ·) = a :: (inner ++ [b]) :=
    List.dropWhile_cons_of_neg (by simpa using ha)
  have hlast : (a :: (inner ++ [b])).reverse.dropWhile (IsSpace ·) =
      (a :: (inner ++ [b])).reverse := by
    rw [List.reverse_cons, List.reverse_append, List.reverse_singleton]
    exact List.dropWhile_cons_of_neg (by simpa using hb)
  unfold strip
  rw [hfirst, hlast, List.reverse_reverse]

/-- The lines of texts written one on a line are those of each of them. -/
theorem splitLines_flatMap (texts : List Str) :
    splitLines (texts.flatMap (· ++ [0x0A])) =
      texts.flatMap fun s => splitLines (s ++ [0x0A]) := by
  induction texts with
  | nil => rfl
  | cons s texts ih =>
      rw [List.flatMap_cons, List.flatMap_cons, ← ih, List.append_assoc]
      exact splitLinesFrom_append [] false s _

theorem filled_of_forall {s : Str} (hs : Trimmed s) (h : ∀ c ∈ s, ¬ IsBreak c) :
    filled (splitLines (s ++ [0x0A])) = [s] := by
  have hne : strip s ≠ [] := by
    rw [strip_of_trimmed hs]
    rcases hs with ⟨a, inner, b, rfl, _⟩
    exact List.cons_ne_nil _ _
  have hline : splitLines (s ++ [0x0A]) = [s] := splitLinesFrom_of_forall h []
  rw [hline]
  exact List.filter_cons_of_pos (decide_eq_true hne)

theorem two_le_filled {s : Str} (hs : Trimmed s) (h : ∃ c ∈ s, IsBreak c) :
    2 ≤ (filled (splitLines (s ++ [0x0A]))).length := by
  rcases hs with ⟨a, inner, b, rfl, ha, hb⟩
  rcases h with ⟨c, hc, hbreak⟩
  have hinner : c ∈ inner := by
    rcases List.mem_cons.mp hc with rfl | hc
    · exact absurd (isSpace_of_isBreak hbreak) ha
    · rcases List.mem_append.mp hc with hc | hc
      · exact hc
      · rw [List.mem_singleton.mp hc] at hbreak
        exact absurd (isSpace_of_isBreak hbreak) hb
  rcases List.append_of_mem hinner with ⟨before, after, rfl⟩
  have hnot : ¬ (false = true ∧ a = 0x0A) := nofun
  have hfirst : ¬ IsBreak a := fun h => ha (isSpace_of_isBreak h)
  have htwo := two_le_length_filled before ⟨a, List.mem_singleton_self a, ha⟩ hbreak
    ⟨b, List.mem_append_left [0x0A] (List.mem_append_right after (List.mem_singleton_self b)), hb⟩
  unfold splitLines
  rw [List.cons_append, splitLinesFrom, if_neg hnot, if_neg hfirst]
  simpa only [List.append_assoc, List.cons_append] using htwo

/-- Texts written one on a line are the lines that are filled. -/
theorem filled_flatMap {texts : List Str} (hs : ∀ s ∈ texts, Trimmed s)
    (h : ∀ s ∈ texts, ∀ c ∈ s, ¬ IsBreak c) :
    filled (splitLines (texts.flatMap (· ++ [0x0A]))) = texts := by
  rw [splitLines_flatMap]
  induction texts with
  | nil => rfl
  | cons s texts ih =>
      rw [List.forall_mem_cons] at hs h
      rw [List.flatMap_cons, filled_append, filled_of_forall hs.1 h.1, ih hs.2 h.2]
      rfl

/-- There are no more lines that are filled than texts only if no text holds a break. -/
theorem length_filled_flatMap_iff {texts : List Str} (hs : ∀ s ∈ texts, Trimmed s) :
    (filled (splitLines (texts.flatMap (· ++ [0x0A])))).length ≤ texts.length ↔
      ∀ s ∈ texts, ∀ c ∈ s, ¬ IsBreak c := by
  constructor
  · rw [splitLines_flatMap]
    intro hle
    have hone : ∀ s, Trimmed s → 1 ≤ (filled (splitLines (s ++ [0x0A]))).length := by
      rintro s ⟨a, inner, b, rfl, ha, _⟩
      exact length_filled_pos [] false nofun ⟨a, List.mem_cons_self, ha⟩
    -- Each text fills a line, and one that holds a break fills two.
    have hall : ∀ rest : List Str, (∀ s ∈ rest, Trimmed s) →
        rest.length ≤ (filled (rest.flatMap fun s => splitLines (s ++ [0x0A]))).length := by
      intro rest hrest
      induction rest with
      | nil => exact Nat.zero_le _
      | cons s rest ih =>
          rw [List.forall_mem_cons] at hrest
          have hs := hone s hrest.1
          have hrest := ih hrest.2
          rw [List.flatMap_cons, filled_append, List.length_append, List.length_cons]
          omega
    induction texts with
    | nil => exact List.forall_mem_nil _
    | cons s texts ih =>
        rw [List.forall_mem_cons] at hs
        have htexts := hall texts hs.2
        have hfirst := hone s hs.1
        rw [List.flatMap_cons, filled_append, List.length_append, List.length_cons] at hle
        refine List.forall_mem_cons.mpr ⟨fun c hc hbreak => ?_, ih hs.2 (by omega)⟩
        have htwo := two_le_filled hs.1 ⟨c, hc, hbreak⟩
        omega
  · intro h
    rw [filled_flatMap hs h]

end Text

end Theory
