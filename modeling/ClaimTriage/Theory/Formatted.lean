import ClaimTriage.Theory.Json
import ClaimTriage.Theory.Lexis
import Mathlib.Data.List.TakeWhile

/-!
# Templates and Formatted Literals

A template is a text with names in braces, each a placeholder for what goes by
the name. What is around a name is found by looking for the two braces: there is
something between them, and no other brace. Braces that enclose no name are
characters like any other.

A formatted literal is a string literal in whose text an expression may stand in
braces. Its reader knows only single and doubled braces, ends of the literal and
escapes, and what is between two braces is read as an expression by a reader of
its own, `field` here, which says how many characters it takes.

So the expressions of a formatted literal need not be the placeholders of its
text. Where they are, the names in the placeholders can be exchanged for other
expressions, and what is read is those: `readFields_renamed`. The reader may look
ahead, but not past the braces of a placeholder, or it would not have read it.

## Main definitions

* `IsName`, `nameAt`: A name, and the one in braces at the beginning of a text.
* `holes`: The names of a template's placeholders, in their order.
* `Renamed`: Two templates that differ in these names only.
* `readFields`, `formattedFields`: The expressions of a formatted literal.

## Theorems

* `holes_sublist`: The expressions that are read are placeholders, if they are
  names.
* `readFields_renamed`: Names are exchanged for expressions.
* `readLiteral_dumpsStr`: A string of JSON is a literal without any.
-/

namespace Theory

namespace Lexis

open Text Uri

def openBrace : CodePoint :=
  ofChar '\x7b'

def closeBrace : CodePoint :=
  ofChar '\x7d'

/-- Either brace. -/
def IsBrace (c : CodePoint) : Prop :=
  c = openBrace ∨ c = closeBrace

instance (c : CodePoint) : Decidable (IsBrace c) :=
  inferInstanceAs (Decidable (_ ∨ _))

/-- What can stand between two braces: something, and no brace. -/
def IsName (name : Str) : Prop :=
  name ≠ [] ∧ ∀ c ∈ name, ¬ IsBrace c

/-- The name in braces a text begins with. -/
def nameAt : Str → Option Str
  | [] => none
  | c :: rest =>
    let name := rest.takeWhile (¬ IsBrace ·)
    if c = openBrace ∧ name ≠ [] ∧ rest[name.length]? = some closeBrace then some name else none

/-- The names of a template's placeholders. -/
def holes : Str → List Str
  | [] => []
  | c :: rest => (nameAt (c :: rest)).toList ++ holes rest

/-- Two templates with placeholders in the same places, whose names are related. -/
inductive Renamed (R : Str → Str → Prop) : Str → Str → Prop where
  | nil : Renamed R [] []
  | char {c : CodePoint} {s t : Str} : nameAt (c :: s) = none → Renamed R s t →
      Renamed R (c :: s) (c :: t)
  | hole {m n s t : Str} : IsName m → IsName n → R m n → Renamed R s t →
      Renamed R (openBrace :: (m ++ closeBrace :: s)) (openBrace :: (n ++ closeBrace :: t))

/-- The expressions in the body of a formatted literal, once so many characters of it
    have been taken, if it ends with the text. Two braces stand for one, and a
    backslash before a brace for itself. -/
def readFields (l : Tables) (field : Str → Option Nat) (long : Bool) :
    Nat → Str → Option (List Str)
  | _, [] => none
  | taken + 1, _ :: rest => readFields l field long taken rest
  | 0, c :: rest =>
    if closes long (c :: rest) then
      if afterwards long (c :: rest) = [] then some [] else none
    else if ¬ Writable c then none
    else if c = newline ∨ c = carriageReturn then
      if long then readFields l field long 0 rest else none
    else if c = openBrace then
      if rest.head? = some openBrace then readFields l field long 1 rest
      else match field rest with
        | none => none
        | some n =>
          if rest[n]? = some closeBrace then
            (readFields l field long (n + 1) rest).map (rest.take n :: ·)
          else none
    else if c = closeBrace then
      if rest.head? = some closeBrace then readFields l field long 1 rest else none
    else if c = backslash then
      if rest.head? = some openBrace ∨ rest.head? = some closeBrace then
        readFields l field long 0 rest
      else match escape l rest with
        | none => none
        | some (_, taken) => readFields l field long taken rest
    else readFields l field long 0 rest

/-- The expressions of a formatted literal, past the letter it begins with. -/
def formattedFields (l : Tables) (field : Str → Option Nat) : Str → Option (List Str)
  | [] => none
  | c :: rest =>
    if c = quote then
      if [quote, quote] <+: rest then readFields l field true 0 (rest.drop 2)
      else readFields l field false 0 rest
    else none

/-! ### Placeholders -/

theorem takeWhile_name {name : Str} (h : ∀ c ∈ name, ¬ IsBrace c) (rest : Str) :
    (name ++ closeBrace :: rest).takeWhile (¬ IsBrace ·) = name := by
  rw [List.takeWhile_append_of_pos fun c hc => decide_eq_true (h c hc),
    List.takeWhile_cons_of_neg (by decide), List.append_nil]

theorem nameAt_eq_some {s name : Str} :
    nameAt s = some name ↔ IsName name ∧ ∃ rest, s = openBrace :: (name ++ closeBrace :: rest) := by
  constructor
  · intro h
    cases s with
    | nil => cases h
    | cons c rest =>
        simp only [nameAt] at h
        split at h
        · rename_i hname
          cases h
          rcases hname with ⟨rfl, hne, hclose⟩
          have hsplit := List.takeWhile_append_dropWhile (p := (¬ IsBrace ·)) (l := rest)
          refine ⟨⟨hne, fun d hd => ?_⟩, ?_⟩
          · exact of_decide_eq_true (List.mem_takeWhile_imp (p := (¬ IsBrace ·)) hd)
          -- What follows the name is the brace it was found before.
          generalize rest.takeWhile (¬ IsBrace ·) = name at hclose hsplit ⊢
          generalize rest.dropWhile (¬ IsBrace ·) = after at hsplit
          subst hsplit
          rw [List.getElem?_append_right (Nat.le_refl _), Nat.sub_self] at hclose
          cases after with
          | nil => cases hclose
          | cons d after =>
              cases hclose
              exact ⟨after, rfl⟩
        · cases h
  · rintro ⟨⟨hne, hname⟩, rest, rfl⟩
    have hclose : (name ++ closeBrace :: rest)[name.length]? = some closeBrace := by
      rw [List.getElem?_append_right (Nat.le_refl _), Nat.sub_self]
      rfl
    simp only [nameAt, takeWhile_name hname]
    exact if_pos ⟨trivial, hne, hclose⟩

theorem nameAt_cons_of_ne {c : CodePoint} (h : c ≠ openBrace) (rest : Str) :
    nameAt (c :: rest) = none := by
  cases hname : nameAt (c :: rest) with
  | none => rfl
  | some name =>
      rcases nameAt_eq_some.mp hname with ⟨_, _, heq⟩
      cases heq
      exact absurd rfl h

/-- A character that begins no placeholder is passed over. -/
theorem holes_cons_of_none {c : CodePoint} {rest : Str} (h : nameAt (c :: rest) = none) :
    holes (c :: rest) = holes rest := by
  rw [holes, h]
  rfl

theorem holes_cons_of_ne {c : CodePoint} (h : c ≠ openBrace) (rest : Str) :
    holes (c :: rest) = holes rest :=
  holes_cons_of_none (nameAt_cons_of_ne h rest)

theorem holes_append {s : Str} (h : ∀ c ∈ s, ¬ IsBrace c) (t : Str) : holes (s ++ t) = holes t := by
  induction s with
  | nil => rfl
  | cons c s ih =>
      have hc : c ≠ openBrace := fun heq => h c List.mem_cons_self (Or.inl heq)
      rw [List.cons_append, holes_cons_of_ne hc, ih fun d hd => h d (List.mem_cons_of_mem _ hd)]

theorem holes_hole {name : Str} (h : IsName name) (rest : Str) :
    holes (openBrace :: (name ++ closeBrace :: rest)) = name :: holes rest := by
  have hclose : closeBrace ≠ openBrace := by decide
  rw [holes, nameAt_eq_some.mpr ⟨h, rest, rfl⟩, holes_append h.2, holes_cons_of_ne hclose]
  rfl

theorem isName_of_mem_holes {s name : Str} (h : name ∈ holes s) : IsName name := by
  induction s with
  | nil => cases h
  | cons c s ih =>
      rcases List.mem_append.mp h with h | h
      · exact (nameAt_eq_some.mp (Option.mem_toList.mp h)).1
      · exact ih h

/-- What is left of a template has no other placeholders. -/
theorem holes_drop (k : Nat) (s : Str) : (holes (s.drop k)).Sublist (holes s) := by
  induction s generalizing k with
  | nil =>
      rw [List.drop_nil]
  | cons c s ih =>
      cases k with
      | zero => exact List.Sublist.refl _
      | succ k => exact (ih k).trans (List.sublist_append_right _ _)

/-- The quote that ends a template belongs to no placeholder. -/
theorem nameAt_append_quote (c : CodePoint) (s : Str) :
    nameAt (c :: (s ++ [quote])) = nameAt (c :: s) := by
  refine Option.ext fun name => ?_
  rw [nameAt_eq_some, nameAt_eq_some]
  refine and_congr_right fun _ => ⟨?_, ?_⟩
  · rintro ⟨rest, heq⟩
    cases rest using List.reverseRecOn with
    | nil =>
        -- The text would have to end with a brace.
        have hlast : c :: s ++ [quote] = (openBrace :: name) ++ [closeBrace] := heq
        exact absurd (List.append_inj' hlast rfl).2 (by decide)
    | append_singleton rest d _ =>
        have hlast : c :: s ++ [quote] = (openBrace :: (name ++ closeBrace :: rest)) ++ [d] := by
          rw [List.cons_append, heq, List.cons_append, List.append_assoc, List.cons_append]
        exact ⟨rest, (List.append_inj' hlast rfl).1⟩
  · rintro ⟨rest, heq⟩
    refine ⟨rest ++ [quote], ?_⟩
    rw [← List.cons_append, heq, List.cons_append, List.append_assoc, List.cons_append]

theorem holes_append_quote (s : Str) : holes (s ++ [quote]) = holes s := by
  induction s with
  | nil => decide
  | cons c s ih => rw [List.cons_append, holes, nameAt_append_quote, ih, holes]

/-! ### Renaming -/

section Renaming

variable {R : Str → Str → Prop}

/-- What has no braces is the same in both. -/
theorem Renamed.of_append {u s t : Str} (hu : ∀ c ∈ u, ¬ IsBrace c) (h : Renamed R s (u ++ t)) :
    ∃ s', s = u ++ s' ∧ Renamed R s' t := by
  induction u generalizing s with
  | nil => exact ⟨s, rfl, h⟩
  | cons d u ih =>
      rw [List.cons_append] at h
      generalize heq : d :: (u ++ t) = whole at h
      cases h with
      | nil => cases heq
      | char _ h =>
          cases heq
          rcases ih (fun c hc => hu c (List.mem_cons_of_mem _ hc)) h with ⟨s', rfl, hs'⟩
          exact ⟨s', rfl, hs'⟩
      | hole => exact absurd (Or.inl (List.cons.inj heq).1) (hu _ List.mem_cons_self)

theorem Renamed.nameAt_eq_none {c : CodePoint} {s t : Str} (h : Renamed R s t)
    (hname : nameAt (c :: s) = none) : nameAt (c :: t) = none := by
  cases ht : nameAt (c :: t) with
  | none => rfl
  | some name =>
      rcases nameAt_eq_some.mp ht with ⟨hisName, rest, heq⟩
      cases heq
      rcases h.of_append hisName.2 with ⟨s', rfl, hs'⟩
      generalize heq : closeBrace :: rest = whole at hs'
      cases hs' with
      | nil => cases heq
      | char =>
          cases heq
          exact absurd (nameAt_eq_some.mpr ⟨hisName, _, rfl⟩) (by rw [hname]; nofun)
      | hole => exact absurd (List.cons.inj heq).1 (by decide)

theorem Renamed.symm {s t : Str} (h : Renamed R s t) : Renamed (fun m n => R n m) t s := by
  induction h with
  | nil => exact Renamed.nil
  | char hname h ih => exact Renamed.char (h.nameAt_eq_none hname) ih
  | hole hm hn hR _ ih => exact Renamed.hole hn hm hR ih

theorem Renamed.forall₂_holes {s t : Str} (h : Renamed R s t) :
    List.Forall₂ R (holes s) (holes t) := by
  induction h with
  | nil => exact List.Forall₂.nil
  | char hname h ih =>
      rw [holes_cons_of_none hname, holes_cons_of_none (h.nameAt_eq_none hname)]
      exact ih
  | hole hm hn hR _ ih =>
      rw [holes_hole hm, holes_hole hn]
      exact List.Forall₂.cons hR ih

theorem Renamed.head {s t : Str} (h : Renamed R s t) : s.head? = t.head? := by
  cases h <;> rfl

end Renaming

/-! ### Escapes -/

/-- The digits of an octal escape end with the third, or before what is none. -/
theorem octalPoint_append {u r r' : Str} (h : (octalPoint (u ++ r)).2 = u.length)
    (hhead : r.head? = r'.head?) : octalPoint (u ++ r') = octalPoint (u ++ r) := by
  have hdigits : ((u ++ r').take 3).takeWhile (IsOctal ·) =
      ((u ++ r).take 3).takeWhile (IsOctal ·) := by
    have hlength : (((u ++ r).take 3).takeWhile (IsOctal ·)).length = u.length := h
    have hprefix := List.prefix_of_prefix_length_le
      ((List.takeWhile_prefix (IsOctal ·)).trans (List.take_prefix 3 (u ++ r)))
      (List.prefix_append u r) (Nat.le_of_eq hlength)
    have hall : ∀ c ∈ u, decide (IsOctal c) = true := by
      rw [← hprefix.eq_of_length hlength]
      exact fun c hc => List.mem_takeWhile_imp (p := (IsOctal ·)) hc
    have hle : u.length ≤ 3 := by
      have hshort := (List.takeWhile_prefix (IsOctal ·) (l := (u ++ r).take 3)).length_le
      rw [hlength, List.length_take] at hshort
      omega
    rw [List.take_append, List.take_of_length_le hle, List.takeWhile_append_of_pos hall,
      List.length_append, Nat.add_eq_left, List.length_eq_zero_iff] at hlength
    rw [List.take_append, List.take_append, List.take_of_length_le hle,
      List.takeWhile_append_of_pos hall, List.takeWhile_append_of_pos hall, hlength]
    refine congrArg (u ++ ·) ?_
    -- The next character is the same, and is no digit of the escape.
    cases r with
    | nil =>
        cases r' with
        | nil => exact hlength
        | cons => cases hhead
    | cons c r =>
        cases r' with
        | nil => cases hhead
        | cons d r' =>
            cases hhead
            cases hcount : 3 - u.length with
            | zero => rfl
            | succ k =>
                rw [hcount, List.take_succ_cons, List.takeWhile_cons] at hlength
                rw [List.take_succ_cons, List.takeWhile_cons]
                split at hlength
                · cases hlength
                · rename_i hc
                  exact if_neg hc
  simp only [octalPoint, hdigits]

theorem takeWhile_append_of_lt {p : CodePoint → Bool} {u r : Str}
    (h : ((u ++ r).takeWhile p).length < u.length) (r' : Str) :
    (u ++ r').takeWhile p = (u ++ r).takeWhile p := by
  induction u with
  | nil => cases h
  | cons c u ih =>
      rw [List.cons_append, List.takeWhile_cons] at h
      rw [List.cons_append, List.cons_append, List.takeWhile_cons, List.takeWhile_cons]
      split at h
      · rename_i hc
        rw [if_pos hc, if_pos hc, ih (Nat.lt_of_succ_lt_succ h)]
      · rename_i hc
        rw [if_neg hc, if_neg hc]

/-- A name in braces is found before anything that follows it. -/
theorem namedPoint_append {l : Tables} {u r made : Str} (r' : Str)
    (h : namedPoint l (u ++ r) = some (made, u.length + 1)) :
    namedPoint l (u ++ r') = some (made, u.length + 1) := by
  cases u with
  | nil =>
      cases r with
      | nil => cases h
      | cons c r =>
          simp only [List.nil_append, namedPoint] at h
          split at h
          · rcases Option.map_eq_some_iff.mp h with ⟨d, _, heq⟩
            exact absurd (congrArg Prod.snd heq) (by simp)
          · cases h
  | cons c u =>
      simp only [List.cons_append, namedPoint] at h ⊢
      split at h
      · rename_i hname
        have hlength : ((u ++ r).takeWhile (· ≠ ofChar '\x7d')).length < u.length := by
          rcases Option.map_eq_some_iff.mp h with ⟨d, _, heq⟩
          have htaken := congrArg Prod.snd heq
          simp only [List.length_cons] at htaken
          omega
        have hfits : ((u ++ r).takeWhile (· ≠ ofChar '\x7d')).length < (u ++ r').length := by
          rw [List.length_append]
          omega
        rw [takeWhile_append_of_lt hlength r', if_pos ⟨hname.1, hfits⟩]
        exact h
      · cases h

/-- An escape is what it is by the characters it takes and the next one. -/
theorem escape_append {l : Tables} {u r r' made : Str}
    (h : escape l (u ++ r) = some (made, u.length)) (hhead : r.head? = r'.head?) :
    escape l (u ++ r') = some (made, u.length) := by
  cases u with
  | nil =>
      rcases escape_cases h with ⟨_, htaken⟩ | ⟨_, _, _, _, _, htaken⟩
      · cases htaken
      · cases htaken
  | cons c u =>
      -- An escape of a fixed number of digits looks at no more than those.
      have hhex : ∀ k, (hexPoint k (u ++ r)).map (fun d => ([d], k + 1)) =
          some (made, (c :: u).length) → (hexPoint k (u ++ r')).map (fun d => ([d], k + 1)) =
            some (made, (c :: u).length) := by
        intro k hk
        have hlength : u.length = k := by
          rcases Option.map_eq_some_iff.mp hk with ⟨d, _, heq⟩
          exact (Nat.succ.inj (congrArg Prod.snd heq)).symm
        subst hlength
        simpa only [hexPoint, List.take_left] using hk
      rw [List.cons_append] at h ⊢
      simp only [escape] at h ⊢
      by_cases hnewline : c = newline
      · rw [if_pos hnewline] at h ⊢
        exact h
      rw [if_neg hnewline] at h ⊢
      by_cases hreturn : c = carriageReturn
      · rw [if_pos hreturn] at h ⊢
        cases u with
        | nil => simpa only [List.nil_append, hhead] using h
        | cons => exact h
      rw [if_neg hreturn] at h ⊢
      cases hsimple : simpleEscapes.lookup c with
      | some d =>
          rw [hsimple] at h
          exact h
      | none =>
          rw [hsimple] at h
          simp only at h ⊢
          by_cases hoctal : IsOctal c
          · rw [if_pos hoctal, ← List.cons_append] at h ⊢
            rw [octalPoint_append (congrArg Prod.snd (Option.some.inj h)) hhead]
            exact h
          rw [if_neg hoctal] at h ⊢
          by_cases hx : c = ofChar 'x'
          · rw [if_pos hx] at h ⊢
            exact hhex 2 h
          rw [if_neg hx] at h ⊢
          by_cases hu : c = ofChar 'u'
          · rw [if_pos hu] at h ⊢
            exact hhex 4 h
          rw [if_neg hu] at h ⊢
          by_cases hU : c = ofChar 'U'
          · rw [if_pos hU] at h ⊢
            exact hhex 8 h
          rw [if_neg hU] at h ⊢
          by_cases hN : c = ofChar 'N'
          · rw [if_pos hN] at h ⊢
            exact namedPoint_append r' h
          rw [if_neg hN] at h ⊢
          exact h

/-! ### Reading -/

section Reading

variable {l : Tables} {field : Str → Option Nat} {long : Bool}

theorem readFields_taken (taken : Nat) (s : Str) :
    readFields l field long taken s = readFields l field long 0 (s.drop taken) := by
  induction s generalizing taken with
  | nil =>
      rw [List.drop_nil]
      cases taken <;> rfl
  | cons c rest ih =>
      cases taken with
      | zero => rfl
      | succ taken =>
          rw [List.drop_succ_cons, ← ih]
          rfl

/-- How a formatted literal goes on: it ends; an expression is read; or something is
    passed over. -/
theorem readFields_cases {c : CodePoint} {rest : Str} {fields : List Str}
    (h : readFields l field long 0 (c :: rest) = some fields) :
    fields = [] ∨
      (∃ n others, c = openBrace ∧ rest[n]? = some closeBrace ∧
        readFields l field long 0 (rest.drop (n + 1)) = some others ∧
        fields = rest.take n :: others) ∨
      ∃ k, readFields l field long 0 (rest.drop k) = some fields := by
  have hskip : ∀ {k : Nat}, readFields l field long k rest = some fields →
      ∃ k, readFields l field long 0 (rest.drop k) = some fields :=
    fun h => ⟨_, (readFields_taken _ rest).symm.trans h⟩
  rw [readFields] at h
  split at h
  · split at h
    · exact Or.inl (Option.some.inj h).symm
    · cases h
  · split at h
    · cases h
    · split at h
      · split at h
        · exact Or.inr (Or.inr (hskip h))
        · cases h
      · split at h
        · rename_i hopen
          split at h
          · exact Or.inr (Or.inr (hskip h))
          · split at h
            · cases h
            · rename_i n _
              split at h
              · rename_i hclose
                rcases Option.map_eq_some_iff.mp h with ⟨others, hothers, rfl⟩
                rw [readFields_taken] at hothers
                exact Or.inr (Or.inl ⟨n, others, hopen, hclose, hothers, rfl⟩)
              · cases h
        · split at h
          · split at h
            · exact Or.inr (Or.inr (hskip h))
            · cases h
          · split at h
            · split at h
              · exact Or.inr (Or.inr (hskip h))
              · split at h
                · cases h
                · exact Or.inr (Or.inr (hskip h))
            · exact Or.inr (Or.inr (hskip h))

theorem take_append_of_getElem? {s : Str} {n : Nat} {c : CodePoint} (h : s[n]? = some c) :
    s = s.take n ++ c :: s.drop (n + 1) := by
  rcases List.getElem?_eq_some_iff.mp h with ⟨hn, hc⟩
  rw [← hc, ← List.drop_eq_getElem_cons hn, List.take_append_drop]

/-- The expressions that are read are placeholders, if they are names. -/
theorem holes_sublist {s : Str} {fields : List Str}
    (h : readFields l field long 0 s = some fields) (hnames : ∀ f ∈ fields, IsName f) :
    fields.Sublist (holes s) := by
  obtain ⟨n, hn⟩ : ∃ n, s.length = n := ⟨_, rfl⟩
  induction n using Nat.strong_induction_on generalizing s fields with
  | h n ih =>
      subst hn
      cases s with
      | nil => cases h
      | cons c rest =>
          have hlength : ∀ k, (rest.drop k).length < (c :: rest).length := by
            intro k
            rw [List.length_drop, List.length_cons]
            omega
          rcases readFields_cases h with rfl | ⟨n, others, rfl, hclose, hothers, rfl⟩ | ⟨k, hk⟩
          · exact List.nil_sublist _
          · have hname := hnames _ List.mem_cons_self
            have hrest := take_append_of_getElem? hclose
            have htail := ih _ (hlength (n + 1)) hothers
              (fun f hf => hnames f (List.mem_cons_of_mem _ hf)) rfl
            rw [hrest, holes_hole hname]
            rw [← hrest]
            exact htail.cons_cons _
          · exact (ih _ (hlength k) hk hnames rfl).trans
              ((holes_drop k rest).trans (List.sublist_append_right _ _))

/-- Where no placeholder begins among the first characters, these are the same in both
    templates. -/
theorem Renamed.split {R : Str → Str → Prop} {s t : Str} (h : Renamed R s t) {k : Nat}
    (hk : k ≤ s.length) (hholes : (holes (s.drop k)).length = (holes s).length) :
    ∃ u s' t', s = u ++ s' ∧ t = u ++ t' ∧ u.length = k ∧ Renamed R s' t' := by
  induction k generalizing s t with
  | zero => exact ⟨[], s, t, rfl, rfl, rfl, h⟩
  | succ k ih =>
      cases h with
      | nil => exact absurd hk (Nat.not_succ_le_zero k)
      | @char c s t hname h =>
          rw [List.drop_succ_cons, holes_cons_of_none hname] at hholes
          rcases ih h (Nat.le_of_succ_le_succ hk) hholes with ⟨u, s', t', rfl, rfl, rfl, h'⟩
          exact ⟨c :: u, s', t', rfl, rfl, rfl, h'⟩
      | @hole m n s t hm hn hR h =>
          -- Within a placeholder one would be lost.
          have hclose : closeBrace ≠ openBrace := by decide
          have hle := (holes_drop k (m ++ closeBrace :: s)).length_le
          rw [holes_append hm.2, holes_cons_of_ne hclose] at hle
          rw [List.drop_succ_cons, holes_hole hm, List.length_cons] at hholes
          omega

/-- What a literal begins with ends it in both templates. -/
theorem Renamed.quotes_prefix {R : Str → Str → Prop} {s t : Str} (h : Renamed R s t) (k : Nat) :
    List.replicate k quote <+: s ++ [quote] ↔ List.replicate k quote <+: t ++ [quote] := by
  induction k generalizing s t with
  | zero => exact iff_of_true (List.nil_prefix) (List.nil_prefix)
  | succ k ih =>
      cases h with
      | nil => exact Iff.rfl
      | @char c s t _ h =>
          rw [List.replicate_succ, List.cons_append, List.cons_append, List.cons_prefix_cons,
            List.cons_prefix_cons, ih h]
      | hole =>
          have hquote : quote ≠ openBrace := by decide
          rw [List.replicate_succ, List.cons_append, List.cons_append, List.cons_prefix_cons,
            List.cons_prefix_cons]
          exact iff_of_false (fun heq => hquote heq.1) (fun heq => hquote heq.1)

theorem Renamed.closes {R : Str → Str → Prop} {s t : Str} (h : Renamed R s t) :
    closes long (s ++ [quote]) = closes long (t ++ [quote]) := by
  cases long with
  | false =>
      have hhead : (s ++ [quote]).head? = (t ++ [quote]).head? := by
        rw [List.head?_append, List.head?_append, h.head]
      simp only [Lexis.closes, Bool.false_eq_true, if_false, hhead]
  | true =>
      simp only [Lexis.closes, if_true]
      exact decide_eq_decide.mpr (h.quotes_prefix 3)

theorem length_holes_le {s x : Str} (h : readFields l field long 0 x = some (holes s)) :
    (holes s).length ≤ (holes x).length :=
  (holes_sublist h fun _ => isName_of_mem_holes).length_le

/-- Templates without placeholders are not renamed. -/
theorem Renamed.eq_of_holes {R : Str → Str → Prop} {s t : Str} (h : Renamed R s t)
    (hs : holes s = []) : s = t := by
  have hnone : (holes (s.drop s.length)).length = (holes s).length := by
    rw [List.drop_length, hs]
    rfl
  rcases h.split (Nat.le_refl _) hnone with ⟨u, s', t', heq, rfl, hlength, h'⟩
  have hs' : s' = [] := by
    rw [heq, List.length_append, Nat.left_eq_add, List.length_eq_zero_iff] at hlength
    exact hlength
  subst hs'
  cases h'
  exact heq

/-- A single brace that was no placeholder's was not read as one. -/
theorem not_readFields_brace {s : Str} {n : Nat} {others fields : List Str}
    (hname : nameAt (openBrace :: s) = none) (hclose : (s ++ [quote])[n]? = some closeBrace)
    (heq : (s ++ [quote]).take n :: others = fields) (hnames : ∀ f ∈ fields, IsName f) : False := by
  have hname' : nameAt (openBrace :: (s ++ [quote])) = some ((s ++ [quote]).take n) := by
    refine nameAt_eq_some.mpr ⟨hnames _ (heq ▸ List.mem_cons_self), (s ++ [quote]).drop (n + 1), ?_⟩
    exact congrArg (openBrace :: ·) (take_append_of_getElem? hclose)
  rw [nameAt_append_quote, hname] at hname'
  cases hname'

/-- What is passed over has nothing of a placeholder, or it would not have been read. -/
theorem skip_renamed {R : Str → Str → Prop} {s t : Str} {taken : Nat} (h : Renamed R s t)
    (hs : readFields l field long taken (s ++ [quote]) = some (holes s)) :
    ∃ u s' t', s = u ++ s' ∧ t = u ++ t' ∧ u.length = taken ∧ Renamed R s' t' ∧
      holes t' = holes t ∧ readFields l field long 0 (s' ++ [quote]) = some (holes s') := by
  rw [readFields_taken] at hs
  have hle : taken ≤ s.length := by
    by_contra hlt
    rw [List.drop_of_length_le (by rw [List.length_append, List.length_singleton]; omega)] at hs
    cases hs
  rw [List.drop_append_of_le_length hle] at hs
  -- No placeholder is in what is taken, or fewer would be read than there are.
  have hcount := length_holes_le hs
  rw [holes_append_quote] at hcount
  have hlength := Nat.le_antisymm (holes_drop taken s).length_le hcount
  have hholes : holes (s.drop taken) = holes s := (holes_drop taken s).eq_of_length hlength
  rcases h.split hle hlength with ⟨u, s', t', rfl, rfl, rfl, h'⟩
  rw [List.drop_left] at hs hholes
  refine ⟨u, s', t', rfl, rfl, rfl, h', ?_, by rw [hs, hholes]⟩
  have hdrop := holes_drop u.length (u ++ t')
  rw [List.drop_left] at hdrop
  refine hdrop.eq_of_length ?_
  rw [← h'.forall₂_holes.length_eq, hholes, h.forall₂_holes.length_eq]

/-- So an escape is the same in both templates. -/
theorem escape_renamed {R : Str → Str → Prop} {s t made : Str} {taken : Nat}
    (h : Renamed R s t) (hescape : escape l (s ++ [quote]) = some (made, taken))
    (hs : readFields l field long taken (s ++ [quote]) = some (holes s)) :
    escape l (t ++ [quote]) = some (made, taken) := by
  rcases skip_renamed h hs with ⟨u, s', t', rfl, rfl, rfl, h', _⟩
  rw [List.append_assoc] at hescape ⊢
  refine escape_append hescape ?_
  rw [List.head?_append, List.head?_append, h'.head]

theorem closes_openBrace (rest : Str) : closes long (openBrace :: rest) = false := by
  have hquote : quote ≠ openBrace := by decide
  cases long with
  | false => exact decide_eq_false fun h => hquote (Option.some.inj h).symm
  | true =>
      have hprefix : ¬ [quote, quote, quote] <+: openBrace :: rest := fun h =>
        hquote (List.cons_prefix_cons.mp h).1
      exact decide_eq_false hprefix

/-- A single brace begins an expression. -/
theorem readFields_open {rest : Str} (h : rest.head? ≠ some openBrace) :
    readFields l field long 0 (openBrace :: rest) = (field rest).bind fun n =>
      if rest[n]? = some closeBrace then
        (readFields l field long 0 (rest.drop (n + 1))).map (rest.take n :: ·)
      else none := by
  rw [readFields, closes_openBrace, if_neg Bool.false_ne_true, if_neg (by decide),
    if_neg (by decide), if_pos rfl, if_neg h]
  cases field rest with
  | none => rfl
  | some n => rw [Option.bind_some, ← readFields_taken]

theorem drop_name (name rest : Str) :
    (name ++ closeBrace :: rest).drop (name.length + 1) = rest := by
  rw [← List.drop_drop, List.drop_left]
  rfl

theorem head_name {name : Str} (h : IsName name) (rest : Str) :
    (name ++ rest).head? ≠ some openBrace := by
  rcases List.exists_cons_of_ne_nil h.1 with ⟨c, others, rfl⟩
  exact fun heq => h.2 c List.mem_cons_self (Or.inl (Option.some.inj heq))

/-- A placeholder is read as what is in it. -/
theorem readFields_hole {name rest : Str} (h : IsName name)
    (hfield : field (name ++ closeBrace :: rest) = some name.length) :
    readFields l field long 0 (openBrace :: (name ++ closeBrace :: rest)) =
      (readFields l field long 0 rest).map (name :: ·) := by
  have hclose : (name ++ closeBrace :: rest)[name.length]? = some closeBrace := by
    rw [List.getElem?_append_right (Nat.le_refl _), Nat.sub_self]
    rfl
  rw [readFields_open (head_name h _), hfield, Option.bind_some, if_pos hclose, drop_name,
    List.take_left]

/-- A placeholder that is read as what is in it is followed by what is read next. -/
theorem of_readFields_hole {name rest : Str} {others : List Str} (h : IsName name)
    (hread : readFields l field long 0 (openBrace :: (name ++ closeBrace :: rest)) =
      some (name :: others)) : readFields l field long 0 rest = some others := by
  rw [readFields_open (head_name h _)] at hread
  rcases Option.bind_eq_some_iff.mp hread with ⟨n, hn, hread⟩
  split at hread
  · rename_i hclose
    rcases Option.map_eq_some_iff.mp hread with ⟨found, hfound, heq⟩
    rcases List.cons.inj heq with ⟨hname, rfl⟩
    have hlt := (List.getElem?_eq_some_iff.mp hclose).1
    have hlength : n = name.length := by
      have htake := congrArg List.length hname
      rw [List.length_take] at htake
      omega
    rw [hlength, drop_name] at hfound
    exact hfound
  · cases hread

/-- What is read past a character that begins no placeholder is the same in both, if what is
    read after it is. -/
theorem readFields_char_renamed {R : Str → Str → Prop} {c : CodePoint} {s t : Str}
    (h : Renamed R s t) (hname : nameAt (c :: s) = none)
    (hskip : ∀ {taken : Nat}, readFields l field long taken (s ++ [quote]) = some (holes s) →
      readFields l field long taken (t ++ [quote]) = some (holes t))
    (hs : readFields l field long 0 (c :: (s ++ [quote])) = some (holes s)) :
    readFields l field long 0 (c :: (t ++ [quote])) = some (holes t) := by
  have hcloses : closes long (c :: (s ++ [quote])) = closes long (c :: (t ++ [quote])) :=
    (Renamed.char hname h).closes
  have hheads : (s ++ [quote]).head? = (t ++ [quote]).head? := by
    rw [List.head?_append, List.head?_append, h.head]
  rw [readFields] at hs ⊢
  by_cases hend : closes long (c :: (s ++ [quote])) = true
  · -- The literal ends here, with no placeholder in it.
    have hnone : holes s = [] := by
      rw [if_pos hend] at hs
      split at hs
      · exact (Option.some.inj hs).symm
      · cases hs
    rw [← h.eq_of_holes hnone]
    exact hs
  rw [if_neg hend] at hs
  rw [if_neg (hcloses ▸ hend)]
  by_cases hwritable : ¬ Writable c
  · rw [if_pos hwritable] at hs
    cases hs
  rw [if_neg hwritable] at hs ⊢
  by_cases hline : c = newline ∨ c = carriageReturn
  · -- A line may only end in a literal that is long.
    rw [if_pos hline] at hs ⊢
    cases long with
    | false => cases hs
    | true => exact hskip hs
  rw [if_neg hline] at hs ⊢
  by_cases hopen : c = openBrace
  · rw [if_pos hopen, ← hheads]
    rw [if_pos hopen] at hs
    by_cases hdouble : (s ++ [quote]).head? = some openBrace
    · rw [if_pos hdouble] at hs ⊢
      exact hskip hs
    · -- An expression in braces that are no placeholder's would be one more.
      rw [if_neg hdouble] at hs
      split at hs
      · cases hs
      · split at hs
        · rename_i hclose
          rcases Option.map_eq_some_iff.mp hs with ⟨others, _, heq⟩
          exact (not_readFields_brace (hopen ▸ hname) hclose heq
            fun _ => isName_of_mem_holes).elim
        · cases hs
  rw [if_neg hopen] at hs ⊢
  by_cases hclose : c = closeBrace
  · -- A closing brace has to be doubled.
    rw [if_pos hclose, ← hheads]
    rw [if_pos hclose] at hs
    by_cases hdouble : (s ++ [quote]).head? = some closeBrace
    · rw [if_pos hdouble] at hs ⊢
      exact hskip hs
    · rw [if_neg hdouble] at hs
      cases hs
  rw [if_neg hclose] at hs ⊢
  by_cases hbackslash : c = backslash
  · rw [if_pos hbackslash, ← hheads]
    rw [if_pos hbackslash] at hs
    by_cases hbrace : (s ++ [quote]).head? = some openBrace ∨
        (s ++ [quote]).head? = some closeBrace
    · rw [if_pos hbrace] at hs ⊢
      exact hskip hs
    · -- An escape takes as much of both, as no placeholder is in what it takes.
      rw [if_neg hbrace] at hs ⊢
      cases hescape : escape l (s ++ [quote]) with
      | none =>
          rw [hescape] at hs
          cases hs
      | some escaped =>
          rcases escaped with ⟨made, taken⟩
          rw [hescape] at hs
          rw [escape_renamed h hescape hs]
          exact hskip hs
  rw [if_neg hbackslash] at hs ⊢
  exact hskip hs

/-- Where the placeholders of a template are what is read of it, their names can be
    exchanged for other expressions, and these are what is read then. -/
theorem readFields_renamed {R : Str → Str → Prop} {s t : Str} (h : Renamed R s t)
    (hs : readFields l field long 0 (s ++ [quote]) = some (holes s))
    (hfield : ∀ n ∈ holes t, ∀ rest, field (n ++ closeBrace :: rest) = some n.length) :
    readFields l field long 0 (t ++ [quote]) = some (holes t) := by
  -- The induction is on the length, as more than one character may be passed over at once.
  obtain ⟨n, hn⟩ : ∃ n, s.length = n := ⟨_, rfl⟩
  induction n using Nat.strong_induction_on generalizing s t with
  | h n ih =>
      subst hn
      cases h with
      | nil => exact hs
      | @char c s t hname h =>
          rw [holes_cons_of_none (h.nameAt_eq_none hname)] at hfield ⊢
          rw [holes_cons_of_none hname] at hs
          refine readFields_char_renamed h hname (fun {taken} htaken => ?_) hs
          rcases skip_renamed h htaken with ⟨u, s', t', rfl, rfl, rfl, h', hsame, hread⟩
          rw [readFields_taken, List.append_assoc, List.drop_left, ← hsame]
          refine ih _ ?_ h' hread (hsame ▸ hfield) rfl
          rw [List.length_cons, List.length_append]
          omega
      | @hole m n s t hm hn hR h =>
          rw [holes_hole hm, List.cons_append, List.append_assoc, List.cons_append] at hs
          rw [holes_hole hn] at hfield ⊢
          have hlt : s.length < (openBrace :: (m ++ closeBrace :: s)).length := by
            rw [List.length_cons, List.length_append, List.length_cons]
            omega
          have hrest := ih _ hlt h (of_readFields_hole hm hs)
            (fun n hn => hfield n (List.mem_cons_of_mem _ hn)) rfl
          rw [List.cons_append, List.append_assoc, List.cons_append,
            readFields_hole hn (hfield n List.mem_cons_self _), hrest]
          rfl

/-- The same of whole literals, whether they begin with one quote or with three. -/
theorem formattedFields_renamed {R : Str → Str → Prop} {s t : Str} (h : Renamed R s t)
    (hs : formattedFields l field (quote :: (s ++ [quote])) = some (holes s))
    (hfield : ∀ n ∈ holes t, ∀ rest, field (n ++ closeBrace :: rest) = some n.length) :
    formattedFields l field (quote :: (t ++ [quote])) = some (holes t) := by
  have hboth : [quote, quote] <+: s ++ [quote] ↔ [quote, quote] <+: t ++ [quote] :=
    h.quotes_prefix 2
  rw [formattedFields, if_pos rfl] at hs ⊢
  by_cases hlong : [quote, quote] <+: s ++ [quote]
  · rw [if_pos hlong] at hs
    rw [if_pos (hboth.mp hlong), ← readFields_taken]
    rw [← readFields_taken] at hs
    rcases skip_renamed h hs with ⟨u, s', t', rfl, rfl, hlength, h', hsame, hread⟩
    rw [readFields_taken, List.append_assoc, ← hlength, List.drop_left, ← hsame]
    exact readFields_renamed h' hread (hsame ▸ hfield)
  · rw [if_neg hlong] at hs
    rw [if_neg fun h' => hlong (hboth.mpr h')]
    exact readFields_renamed h hs hfield

theorem formattedFields_sublist {s : Str} {fields : List Str}
    (h : formattedFields l field (quote :: (s ++ [quote])) = some fields)
    (hnames : ∀ f ∈ fields, IsName f) : fields.Sublist (holes s) := by
  rw [formattedFields, if_pos rfl] at h
  rw [← holes_append_quote]
  split at h
  · exact (holes_sublist h hnames).trans (holes_drop 2 _)
  · exact holes_sublist h hnames

end Reading

/-! ### Strings of JSON -/

theorem hexValue_digit {d : Nat} (h : d < 16) : hexValue (Numeral.digit d) = some d := by
  have hall : ∀ d < 16, hexValue (Numeral.digit d) = some d := by decide
  exact hall d h

/-- Four hexadecimal digits are read as the unit they are of. -/
theorem hexPoint_fixed {c : CodePoint} (h : c.val < 0x10000) (r : Str) :
    hexPoint 4 (Numeral.fixed 16 4 c.val ++ r) = some c := by
  have hfixed : Numeral.fixed 16 4 c.val = [Numeral.digit (c.val / 16 / 16 / 16 % 16),
      Numeral.digit (c.val / 16 / 16 % 16), Numeral.digit (c.val / 16 % 16),
      Numeral.digit (c.val % 16)] := rfl
  have hread : ∀ n : Nat, hexValue (Numeral.digit (n % 16)) = some (n % 16) :=
    fun n => hexValue_digit (Nat.mod_lt n (by decide))
  have hdigits : ((Numeral.fixed 16 4 c.val ++ r).take 4).mapM hexValue =
      some [c.val / 16 / 16 / 16 % 16, c.val / 16 / 16 % 16, c.val / 16 % 16, c.val % 16] := by
    simp only [hfixed, List.cons_append, List.nil_append, List.take_succ_cons, List.take_zero,
      List.mapM_cons, List.mapM_nil, hread, Option.bind_eq_bind, Option.bind_some,
      Option.pure_def]
  have hvalue : 16 * (16 * (16 * (16 * 0 + c.val / 16 / 16 / 16 % 16) + c.val / 16 / 16 % 16) +
      c.val / 16 % 16) + c.val % 16 = c.val := by omega
  rw [hexPoint, hdigits]
  refine (dif_pos ⟨rfl, ?_⟩).trans (congrArg some (Fin.ext hvalue))
  exact Nat.lt_of_le_of_lt (Nat.le_of_eq hvalue) (by omega)

/-- What stands for a unit in a string of JSON stands for it in a literal. -/
theorem readBody_escape (l : Tables) {c : CodePoint} (h : c.val < 0x10000) (r : Str) :
    readBody l false 0 (Json.escape c ++ r) = (readBody l false 0 r).map (c :: ·) := by
  have hescape : ∀ {letter : CodePoint} {rest : Str} {taken : Nat},
      escape l (letter :: rest) = some ([c], taken) →
      readBody l false 0 (backslash :: letter :: rest) =
        (readBody l false 0 ((letter :: rest).drop taken)).map (c :: ·) := by
    intro letter rest taken heq
    have hcloses : closes false (backslash :: letter :: rest) = false := rfl
    rw [readBody, hcloses, if_neg Bool.false_ne_true, if_neg (by decide), if_neg (by decide),
      if_neg (by decide), if_pos rfl, heq]
    simp only [readBody_taken l false taken]
    rfl
  rcases Json.escape_cases c with ⟨letter, hletter, heq⟩ | ⟨hnone, heq⟩ | ⟨_, heq⟩
  · have hshort : escape l (letter :: r) = some ([c], 1) := by
      have hmem := Json.shorts_lookup_mem hletter
      simp only [Json.shorts, List.mem_cons, Prod.mk.injEq, List.not_mem_nil, or_false] at hmem
      rcases hmem with ⟨rfl, rfl⟩ | ⟨rfl, rfl⟩ | ⟨rfl, rfl⟩ | ⟨rfl, rfl⟩ | ⟨rfl, rfl⟩ |
        ⟨rfl, rfl⟩ | ⟨rfl, rfl⟩ <;> rfl
    rw [heq]
    exact hescape hshort
  · rcases Json.ne_of_shorts_none hnone with ⟨hquote, hbackslash⟩
    have hnewline : c ≠ newline := by
      rintro rfl
      exact absurd hnone (by decide)
    have hreturn : c ≠ carriageReturn := by
      rintro rfl
      exact absurd hnone (by decide)
    have hprintable : Json.IsPrintable c := by
      by_contra hnot
      rw [Json.escape, hnone] at heq
      simp only [if_neg hnot] at heq
      have hlength := congrArg List.length heq
      rw [List.length_cons, List.length_cons, Numeral.length_fixed, List.length_singleton]
        at hlength
      cases hlength
    have hwritable : Writable c := by
      refine ⟨fun hzero => ?_, ?_⟩
      · exact absurd hprintable.1 (by omega)
      · have hle := hprintable.2
        exact fun hsurrogate => absurd hsurrogate.1 (by omega)
    have hplain : c ≠ backslash := hbackslash
    have hcloses : closes false (c :: r) = false :=
      decide_eq_false fun h => hquote (Option.some.inj h)
    rw [heq, List.singleton_append, readBody, hcloses, if_neg Bool.false_ne_true,
      if_neg (not_not_intro hwritable), if_neg hnewline, if_neg hreturn, if_neg hplain]
  · have hunit : escape l (0x75 :: (Numeral.fixed 16 4 c.val ++ r)) = some ([c], 5) := by
      have hpoint := hexPoint_fixed h r
      have hu : escape l (0x75 :: (Numeral.fixed 16 4 c.val ++ r)) =
          (hexPoint 4 (Numeral.fixed 16 4 c.val ++ r)).map fun d => ([d], 5) := rfl
      rw [hu, hpoint]
      rfl
    have hdrop : (Numeral.fixed 16 4 c.val ++ r).drop 4 = r :=
      List.drop_left' (Numeral.length_fixed 16 4 c.val)
    rw [heq]
    refine (hescape hunit).trans ?_
    rw [List.drop_succ_cons, hdrop]

theorem readBody_escapes (l : Tables) {u : Str} (h : ∀ c ∈ u, c.val < 0x10000) :
    readBody l false 0 (u.flatMap Json.escape ++ [quote]) = some u := by
  induction u with
  | nil => rfl
  | cons c u ih =>
      rw [List.flatMap_cons, List.append_assoc, readBody_escape l (h c List.mem_cons_self),
        ih fun d hd => h d (List.mem_cons_of_mem _ hd)]
      rfl

/-- A string of JSON is a literal, which stands for the code units of the string. -/
theorem readLiteral_dumpsStr (l : Tables) (s : Str) :
    readLiteral l (Json.dumpsStr s) = some (encode16 s) := by
  have hshort : ¬ [quote, quote] <+: (encode16 s).flatMap Json.escape ++ [quote] := by
    rintro ⟨rest, heq⟩
    cases hunits : encode16 s with
    | nil =>
        rw [hunits] at heq
        exact absurd (congrArg List.length heq) (by simp)
    | cons c u =>
        rw [hunits, List.flatMap_cons, List.append_assoc] at heq
        exact Json.escape_ne_quote c _ (quote :: rest) heq.symm
  have hread := readBody_escapes l (encode16_lt s)
  have hquote : Json.quote = quote := rfl
  rw [Json.dumpsStr, List.cons_append, readLiteral, hquote, if_pos rfl]
  exact (if_neg hshort).trans hread

end Lexis

end Theory
