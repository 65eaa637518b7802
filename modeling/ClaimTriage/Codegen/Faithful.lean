import ClaimTriage.Codegen.Keywords
import ClaimTriage.Theory.Lexis

/-!
# Faithful Names and Values

Whether the enums and the error codes of a contract come out of the generator as
they went in.

A value of an enum becomes a member: a name folded from it, and a literal its
characters are pasted into. The name is always an identifier, as a value without
a usable one is refused, but two values that differ in nothing but case and what
stands between their letters and digits get one name. The literal stands for the
value exactly if the value is a text that stands for itself between two double
quotes. An error code becomes the name of a class as well, folded by another
function, which keeps every character but underscores.

## Main definitions

* `runs`, `Alike`: What the name of a member keeps of a value, and two values that
  it keeps the same of.
* `Capitalizes`, `camel`: What is used of the case of letters, and what the name of a
  class is made of.
* `Named`, `SameClass`: A code some class can be named by, and two codes with one
  name.
* `marks`: What the name of a class keeps of a code in ASCII.
* `enumMembers`, `enumSource`: The members of an enum, and the class of them.
* `errorTable`, `entryLine`: The error codes with their classes, and how they are
  written.
* `Faithful`: The enums and the error codes come out as they went in.
* `Told`: The texts of the document are ones that do.

## Theorems

* `memberName_eq_iff`: Which values get one name.
* `identifier_errorName`: Which codes name a class.
* `sameClass_iff_of_ascii`: Which codes of ASCII name the same class.
* `faithful_iff`: Which documents come out faithful.
-/

namespace ClaimTriage

namespace Codegen

open Theory Text Numeral Failing Yaml

open Lexis (Tables Identifier Verbatim readLiteral)

/-! ### What a member's name keeps -/

/-- The runs of letters and digits of a text. -/
def runs : Str → List Str
  | [] => []
  | [c] => if isAlphanumeric c then [[c]] else []
  | c :: d :: rest =>
    if isAlphanumeric c then
      if isAlphanumeric d then (runs (d :: rest)).modifyHead (c :: ·) else [c] :: runs (d :: rest)
    else runs (d :: rest)

/-- A text begins with another character. -/
def Leads (s : Str) : Prop :=
  ∃ c ∈ s.head?, isAlphanumeric c = false

/-- A text ends with another character. -/
def Trails (s : Str) : Prop :=
  ∃ c ∈ s.getLast?, isAlphanumeric c = false

/-- Two values with the same letters and digits in the same runs, in whatever case,
    that both begin with another character or neither, and end with one or
    neither. -/
def Alike (s t : Str) : Prop :=
  runs (s.map upperAscii) = runs (t.map upperAscii) ∧ (Leads s ↔ Leads t) ∧ (Trails s ↔ Trails t)

theorem underscore_not_alphanumeric : isAlphanumeric underscore = false := by decide

theorem ne_underscore {c : CodePoint} (h : isAlphanumeric c = true) : c ≠ underscore := by
  rintro rfl
  cases h

theorem runs_ne_nil {c : CodePoint} (h : isAlphanumeric c = true) (rest : Str) :
    ∃ run others, runs (c :: rest) = run :: others := by
  cases rest with
  | nil => exact ⟨[c], [], by rw [runs, if_pos h]⟩
  | cons d rest =>
      rw [runs, if_pos h]
      split
      · rename_i hd
        rcases runs_ne_nil hd rest with ⟨run, others, hruns⟩
        exact ⟨c :: run, others, by rw [hruns, List.modifyHead_cons]⟩
      · exact ⟨_, _, rfl⟩

theorem ne_nil_of_mem_runs {s run : Str} (h : run ∈ runs s) : run ≠ [] := by
  fun_induction runs s with
  | case1 => cases h
  | case2 c hc =>
      rw [List.mem_singleton.mp h]
      exact List.cons_ne_nil _ _
  | case3 => cases h
  | case4 c d rest hc hd ih =>
      rcases runs_ne_nil hd rest with ⟨first, others, hruns⟩
      rw [hruns] at ih
      rw [hruns, List.modifyHead_cons] at h
      rcases List.mem_cons.mp h with rfl | h
      · exact List.cons_ne_nil _ _
      · exact ih (List.mem_cons_of_mem _ h)
  | case5 c d rest hc hd ih =>
      rcases List.mem_cons.mp h with rfl | h
      · exact List.cons_ne_nil _ _
      · exact ih h
  | case6 c d rest hc ih => exact ih h

instance (s : Str) : Decidable (Leads s) :=
  Option.decidableExistsMem s.head?

instance (s : Str) : Decidable (Trails s) :=
  Option.decidableExistsMem s.getLast?

instance (s t : Str) : Decidable (Alike s t) :=
  inferInstanceAs (Decidable (_ ∧ _))

theorem not_leads {c : CodePoint} (h : isAlphanumeric c = true) (rest : Str) :
    ¬ Leads (c :: rest) := by
  rintro ⟨_, ⟨⟩, hnot⟩
  exact Bool.noConfusion (h.symm.trans hnot)

theorem not_trails {c : CodePoint} (h : isAlphanumeric c = true) : ¬ Trails [c] := by
  rintro ⟨_, ⟨⟩, hnot⟩
  exact Bool.noConfusion (h.symm.trans hnot)

/-- What comes after the last run. -/
def afterRuns (s : Str) : List Str :=
  if Trails s then [[]] else []

/-- A folded text, taken apart at its underscores: its runs, with nothing before
    them where another character leads, and after them where one trails. -/
theorem splitOn_collapsed (within : Bool) {s : Str} (hs : s ≠ []) :
    (collapsed within s).splitOn underscore =
      (if within = false ∧ Leads s then [[]] else []) ++ runs s ++ afterRuns s := by
  induction s generalizing within with
  | nil => exact absurd rfl hs
  | cons c rest ih =>
      by_cases hc : isAlphanumeric c = true
      · have hhead : ((c == underscore) = false) := beq_eq_false_iff_ne.mpr (ne_underscore hc)
        rw [collapsed, if_pos hc, List.splitOn_cons_eq_if_modifyHead, hhead,
          if_neg Bool.false_ne_true, if_neg fun h => not_leads hc rest h.2, List.nil_append]
        cases rest with
        | nil =>
            rw [runs, if_pos hc, afterRuns, if_neg (not_trails hc)]
            rfl
        | cons d rest =>
            have htrails : afterRuns (c :: d :: rest) = afterRuns (d :: rest) := rfl
            rw [ih false (List.cons_ne_nil _ _), runs, if_pos hc, htrails]
            -- The character joins the next run, or is one of its own.
            by_cases hd : isAlphanumeric d = true
            · rcases runs_ne_nil hd rest with ⟨run, others, hruns⟩
              rw [if_neg fun h => not_leads hd rest h.2, if_pos hd, hruns]
              rfl
            · have hleads : Leads (d :: rest) := ⟨d, rfl, eq_false_of_ne_true hd⟩
              rw [if_pos ⟨rfl, hleads⟩, if_neg hd]
              rfl
      · have hleads : Leads (c :: rest) := ⟨c, rfl, eq_false_of_ne_true hc⟩
        rw [collapsed, if_neg hc]
        cases rest with
        | nil =>
            have htrails : Trails [c] := ⟨c, rfl, eq_false_of_ne_true hc⟩
            rw [runs, if_neg hc, afterRuns, if_pos htrails]
            cases within with
            | false =>
                rw [if_neg Bool.false_ne_true, if_pos ⟨rfl, hleads⟩]
                decide
            | true => rfl
        | cons d rest =>
            have htrails : afterRuns (c :: d :: rest) = afterRuns (d :: rest) := rfl
            rw [runs, if_neg hc, htrails]
            cases within with
            | false =>
                -- The first of a run of other characters is the underscore.
                rw [if_neg Bool.false_ne_true, if_pos ⟨rfl, hleads⟩,
                  List.splitOn_cons_eq_if_modifyHead, if_pos (beq_self_eq_true _),
                  ih true (List.cons_ne_nil _ _), if_neg fun h => Bool.noConfusion h.1]
                rfl
            | true =>
                rw [if_pos rfl, ih true (List.cons_ne_nil _ _),
                  if_neg fun h => Bool.noConfusion h.1, if_neg fun h => Bool.noConfusion h.1]

theorem isAlphanumeric_upperAscii (c : CodePoint) :
    isAlphanumeric (upperAscii c) = isAlphanumeric c := by
  unfold upperAscii
  split
  · rename_i hc
    have h : (0x30 ≤ c.val - 0x20 ∧ c.val - 0x20 ≤ 0x39 ∨
        0x41 ≤ c.val - 0x20 ∧ c.val - 0x20 ≤ 0x5A ∨
        0x61 ≤ c.val - 0x20 ∧ c.val - 0x20 ≤ 0x7A) ↔
        (0x30 ≤ c.val ∧ c.val ≤ 0x39 ∨ 0x41 ≤ c.val ∧ c.val ≤ 0x5A ∨
          0x61 ≤ c.val ∧ c.val ≤ 0x7A) := by omega
    exact decide_eq_decide.mpr h
  · rfl

theorem leads_map_upperAscii (s : Str) : Leads (s.map upperAscii) ↔ Leads s := by
  unfold Leads
  rw [List.head?_map]
  simp only [Option.mem_def, Option.map_eq_some_iff, exists_exists_and_eq_and,
    isAlphanumeric_upperAscii]

theorem trails_map_upperAscii (s : Str) : Trails (s.map upperAscii) ↔ Trails s := by
  unfold Trails
  rw [List.getLast?_map]
  simp only [Option.mem_def, Option.map_eq_some_iff, exists_exists_and_eq_and,
    isAlphanumeric_upperAscii]

/-- The runs of a text are what is left of it once folded. -/
theorem runs_eq_filter {s : Str} (hs : s ≠ []) :
    runs s = ((collapsed false s).splitOn underscore).filter (· ≠ []) := by
  have hruns : (runs s).filter (· ≠ []) = runs s :=
    List.filter_eq_self.mpr fun run hrun => decide_eq_true (ne_nil_of_mem_runs hrun)
  have hbefore :
      (if false = false ∧ Leads s then [[]] else ([] : List Str)).filter (· ≠ []) = [] := by
    split <;> rfl
  have hafter : (afterRuns s).filter (· ≠ []) = [] := by
    unfold afterRuns
    split <;> rfl
  rw [splitOn_collapsed false hs, List.filter_append, List.filter_append, hruns, hbefore, hafter,
    List.nil_append, List.append_nil]

theorem leads_iff {s : Str} : Leads s ↔ (collapsed false s).head? = some underscore := by
  cases s with
  | nil => exact ⟨nofun, nofun⟩
  | cons c rest =>
      by_cases hc : isAlphanumeric c = true
      · refine iff_of_false (not_leads hc rest) fun h => ne_underscore hc ?_
        rw [collapsed, if_pos hc] at h
        exact Option.some.inj h
      · refine iff_of_true ⟨c, rfl, eq_false_of_ne_true hc⟩ ?_
        rw [collapsed, if_neg hc]
        rfl

theorem collapsed_eq_iff {s t : Str} (hs : s ≠ []) (ht : t ≠ []) :
    collapsed false s = collapsed false t ↔
      runs s = runs t ∧ (Leads s ↔ Leads t) ∧ (Trails s ↔ Trails t) := by
  constructor
  · intro h
    have hruns : runs s = runs t := by rw [runs_eq_filter hs, runs_eq_filter ht, h]
    have hleads : Leads s ↔ Leads t := by rw [leads_iff, leads_iff, h]
    refine ⟨hruns, hleads, ?_⟩
    -- What is before the runs and the runs are the same, and so is what comes after them.
    have hparts := congrArg (List.splitOn underscore) h
    rw [splitOn_collapsed false hs, splitOn_collapsed false ht, hruns,
      if_congr (and_congr_right fun _ => hleads) rfl rfl] at hparts
    have hafter : afterRuns s = afterRuns t := List.append_cancel_left hparts
    unfold afterRuns at hafter
    by_cases htrails : Trails s <;> by_cases htrails' : Trails t <;> simp_all
  · rintro ⟨hruns, hleads, htrails⟩
    have hparts : (collapsed false s).splitOn underscore =
        (collapsed false t).splitOn underscore := by
      rw [splitOn_collapsed false hs, splitOn_collapsed false ht, hruns,
        if_congr (and_congr_right fun _ => hleads) rfl rfl, afterRuns, if_congr htrails rfl rfl]
      rfl
    calc collapsed false s
        = [underscore].intercalate ((collapsed false s).splitOn underscore) :=
          (List.intercalate_splitOn underscore).symm
      _ = [underscore].intercalate ((collapsed false t).splitOn underscore) := by rw [hparts]
      _ = collapsed false t := List.intercalate_splitOn underscore

/-- Folding a text leaves its case alone. -/
theorem collapsed_map_upperAscii (within : Bool) (s : Str) :
    collapsed within (s.map upperAscii) = (collapsed within s).map upperAscii := by
  induction s generalizing within with
  | nil => rfl
  | cons c rest ih =>
      rw [List.map_cons, collapsed, collapsed, isAlphanumeric_upperAscii]
      split
      · rw [List.map_cons, ih]
      · split
        · exact ih true
        · rw [List.map_cons, ih]
          rfl

/-- Two values are named alike exactly if they are alike. -/
theorem memberName_eq_iff {s t : Str} (hs : s ≠ []) (ht : t ≠ []) :
    (collapsed false s).map upperAscii = (collapsed false t).map upperAscii ↔ Alike s t := by
  have hne : ∀ {u : Str}, u ≠ [] → u.map upperAscii ≠ [] := fun h => mt List.map_eq_nil_iff.mp h
  rw [← collapsed_map_upperAscii, ← collapsed_map_upperAscii, collapsed_eq_iff (hne hs) (hne ht),
    leads_map_upperAscii, leads_map_upperAscii, trails_map_upperAscii, trails_map_upperAscii]
  rfl

/-! ### Names that are identifiers -/

/-- A character the name of a member may have. -/
def Capital (c : CodePoint) : Prop :=
  (0x41 ≤ c.val ∧ c.val ≤ 0x5A) ∨ c = underscore ∨ (0x30 ≤ c.val ∧ c.val ≤ 0x39)

theorem Capital.lt {c : CodePoint} (h : Capital c) : c.val < 0x60 := by
  rcases h with h | rfl | h
  · omega
  · decide
  · omega

theorem capital_of_mem {within : Bool} {s : Str} {c : CodePoint}
    (h : c ∈ (collapsed within s).map upperAscii) : Capital c := by
  rcases List.mem_map.mp h with ⟨d, hd, rfl⟩
  clear h
  induction s generalizing within with
  | nil => cases hd
  | cons e rest ih =>
      rw [collapsed] at hd
      split at hd
      · rename_i he
        rcases List.mem_cons.mp hd with rfl | hd
        · have hupper := of_decide_eq_true ((isAlphanumeric_upperAscii d).trans he)
          rcases hupper with hdigit | hcapital | hsmall
          · exact Or.inr (Or.inr hdigit)
          · exact Or.inl hcapital
          · -- No letter is small once it is made a capital.
            unfold upperAscii at hsmall
            split at hsmall
            · rename_i hd
              exact absurd hsmall.1 (by simp only; omega)
            · rename_i hd
              exact absurd hsmall hd
        · exact ih hd
      · split at hd
        · exact ih hd
        · rcases List.mem_cons.mp hd with rfl | hd
          · exact Or.inr (Or.inl rfl)
          · exact ih hd

/-- Every word that is no name has a small letter. -/
theorem exists_small_of_mem_keywords : ∀ word ∈ Lexis.keywords, ∃ c ∈ word, 0x60 ≤ c.val := by
  have hall : (Lexis.keywords.all fun word => word.any (0x60 ≤ ·.val)) = true := by decide +kernel
  simpa only [List.all_eq_true, List.any_eq_true, decide_eq_true_eq] using hall

/-- Every member is named by an identifier. -/
theorem identifier_memberName (l : Tables) {s : Str} (h : Usable s) :
    Identifier l ((collapsed false s).map upperAscii) := by
  have hcapital : ∀ c ∈ (collapsed false s).map upperAscii, Capital c := fun _ => capital_of_mem
  rcases h with ⟨first, hfirst, hdigit⟩
  cases hname : collapsed false s with
  | nil =>
      rw [hname] at hfirst
      cases hfirst
  | cons c rest =>
      rw [hname] at hfirst hcapital
      cases hfirst
      rw [List.map_cons] at hcapital ⊢
      refine ⟨?_, fun d hd => ?_, fun hword => ?_⟩
      · have hc := hcapital _ List.mem_cons_self
        refine (l.starts_ascii _ (Nat.lt_trans hc.lt (by decide))).mpr ?_
        rcases hc with hletter | hunderscore | hnot
        · exact Or.inl (Or.inl hletter)
        · exact Or.inr hunderscore
        · exact absurd hnot hdigit
      · have hd := hcapital _ (List.mem_cons_of_mem _ hd)
        exact (l.continues_ascii _ (Nat.lt_trans hd.lt (by decide))).mpr
          (Or.imp_left Or.inl hd)
      · rcases exists_small_of_mem_keywords _ hword with ⟨d, hd, hsmall⟩
        exact absurd (hcapital d hd).lt (Nat.not_lt.mpr hsmall)

theorem normalize_memberName (l : Tables) (s : Str) :
    l.normalize ((collapsed false s).map upperAscii) = (collapsed false s).map upperAscii :=
  l.normalize_of_ascii fun _ hc => Nat.lt_trans (capital_of_mem hc).lt (by decide)

/-- What is used of the case of letters: capitalizing a text leaves it a part of an
    identifier, its first character depends on the first one only, and in ASCII the
    first letter is made a capital and the others small. -/
structure Capitalizes (l : Tables) (capitalize : Str → Str) : Prop where
  continues : ∀ s, (∀ c ∈ capitalize s, l.continues c = true) ↔ ∀ c ∈ s, l.continues c = true
  head : ∀ c rest, (capitalize (c :: rest)).head? = (capitalize [c]).head?
  ne_nil : ∀ c, capitalize [c] ≠ []
  ascii_nil : capitalize [] = []
  ascii_cons : ∀ (c : CodePoint) rest, (∀ d ∈ c :: rest, d.val < 0x80) →
    capitalize (c :: rest) = upperAscii c :: rest.map lowerAscii

/-- The parts of a code, capitalized and run together. -/
def camel (capitalize : Str → Str) (s : Str) : Str :=
  (s.splitOn underscore).flatMap capitalize

/-- A code some class can be named by: its characters may stand in an identifier, and
    the first but underscores begins one once it is capitalized. -/
def Named (l : Tables) (capitalize : Str → Str) (s : Str) : Prop :=
  (∀ c ∈ s, l.continues c = true) ∧
    ∀ c ∈ (s.filter (· ≠ underscore)).head?, ∀ d ∈ (capitalize [c]).head?, l.starts d = true

instance (l : Tables) (capitalize : Str → Str) (s : Str) : Decidable (Named l capitalize s) :=
  have (c : CodePoint) : Decidable (∀ d ∈ (capitalize [c]).head?, l.starts d = true) :=
    Option.decidableForallMem _
  @instDecidableAnd _ _ (List.decidableBAll _ _) (Option.decidableForallMem _)

/-- Two codes that a class of one name is raised for. -/
def SameClass (l : Tables) (capitalize : Str → Str) (s t : Str) : Prop :=
  l.normalize (camel capitalize s) = l.normalize (camel capitalize t)

theorem flatten_splitOn (s : Str) :
    (s.splitOn underscore).flatten = s.filter (· ≠ underscore) := by
  induction s with
  | nil => rfl
  | cons c rest ih =>
      rw [List.splitOn_cons_eq_if_modifyHead]
      split
      · rename_i hc
        rw [List.flatten_cons, List.nil_append, ih, List.filter_cons_of_neg]
        simpa using hc
      · rename_i hc
        rcases List.exists_cons_of_ne_nil (List.splitOn_ne_nil underscore rest) with
          ⟨first, others, hparts⟩
        rw [hparts, List.flatten_cons] at ih
        rw [hparts, List.modifyHead_cons, List.flatten_cons, List.cons_append, ih,
          List.filter_cons_of_pos]
        simpa using hc

theorem error_letters : ∀ c ∈ text "Error", c.val < 0x80 ∧ Lexis.IsLetter c := by
  have hall : ((text "Error").all fun c => c.val < 0x80 ∧ Lexis.IsLetter c) = true := by decide
  simpa only [List.all_eq_true, decide_eq_true_eq] using hall

section Names

variable {l : Tables} {capitalize : Str → Str} (hcap : Capitalizes l capitalize)

include hcap

theorem continues_camel (s : Str) :
    (∀ c ∈ camel capitalize s, l.continues c = true) ↔ ∀ c ∈ s, l.continues c = true := by
  have hparts : (∀ c ∈ camel capitalize s, l.continues c = true) ↔
      ∀ c ∈ (s.splitOn underscore).flatten, l.continues c = true := by
    unfold camel
    rw [List.forall_mem_flatMap, List.forall_mem_flatten]
    exact forall₂_congr fun part _ => hcap.continues part
  have hunderscore : l.continues underscore = true :=
    (l.continues_ascii _ (by decide)).mpr (Or.inr (Or.inl rfl))
  rw [hparts, flatten_splitOn]
  constructor
  · intro h c hc
    by_cases heq : c = underscore
    · rw [heq, hunderscore]
    · exact h c (List.mem_filter.mpr ⟨hc, decide_eq_true heq⟩)
  · exact fun h c hc => h c (List.mem_filter.mp hc).1

/-- Capitalized parts begin as the first character of them does. -/
theorem head_flatMap (parts : List Str) :
    (parts.flatMap capitalize).head? =
      parts.flatten.head?.bind fun c => (capitalize [c]).head? := by
  induction parts with
  | nil => rfl
  | cons part parts ih =>
      rw [List.flatMap_cons, List.flatten_cons]
      cases part with
      | nil => rw [hcap.ascii_nil, List.nil_append, List.nil_append, ih]
      | cons c rest =>
          have hhead := hcap.head c rest
          rcases List.exists_cons_of_ne_nil (hcap.ne_nil c) with ⟨d, ds, hone⟩
          rw [hone] at hhead
          cases hcase : capitalize (c :: rest) with
          | nil =>
              rw [hcase] at hhead
              cases hhead
          | cons e es =>
              rw [hcase] at hhead
              cases hhead
              rw [List.cons_append, List.cons_append, List.head?_cons, List.head?_cons,
                Option.bind_some, hone, List.head?_cons]

/-- A class is named by an identifier exactly if its code is one that can name it. -/
theorem identifier_errorName (s : Str) :
    Identifier l (camel capitalize s ++ text "Error") ↔ Named l capitalize s := by
  have herror : ∀ c ∈ text "Error", l.continues c = true := fun c hc =>
    (l.continues_ascii c (error_letters c hc).1).mpr (Or.inl (error_letters c hc).2)
  have hhead := head_flatMap hcap (s.splitOn underscore)
  rw [flatten_splitOn] at hhead
  -- No keyword ends as the class of an error does.
  have hkeyword : ∀ name : Str, name ++ text "Error" ∉ Lexis.keywords := by
    intro name hword
    have hsuffix : ∀ word ∈ Lexis.keywords, ¬ text "Error" <:+ word := by decide
    exact hsuffix _ hword (List.suffix_append _ _)
  unfold Named
  rw [← continues_camel hcap]
  cases hname : camel capitalize s with
  | nil =>
      -- Nothing is left of the code, and the class is just an error.
      unfold camel at hname
      rw [hname] at hhead
      refine iff_of_true ?_ ⟨fun c hc => absurd hc List.not_mem_nil, fun c hc d hd => ?_⟩
      · have hstart : l.starts (ofChar 'E') = true :=
          (l.starts_ascii _ (by decide)).mpr (Or.inl (by decide))
        exact ⟨hstart, fun c hc => herror c (List.mem_cons_of_mem _ hc), hkeyword []⟩
      · rw [Option.mem_def.mp hc, Option.bind_some, hd] at hhead
        cases hhead
  | cons c rest =>
      -- The class begins with what the first character that is kept is made.
      have hbegins : (∀ a ∈ (s.filter (· ≠ underscore)).head?, ∀ d ∈ (capitalize [a]).head?,
          l.starts d = true) ↔ l.starts c = true := by
        unfold camel at hname
        rw [hname, List.head?_cons] at hhead
        rcases Option.bind_eq_some_iff.mp hhead.symm with ⟨a, ha, hc⟩
        rw [ha]
        simp only [Option.mem_some_iff, forall_eq']
        rw [hc]
        simp only [Option.mem_some_iff, forall_eq']
      rw [hbegins, List.cons_append]
      constructor
      · rintro ⟨hstart, hrest, _⟩
        refine ⟨?_, hstart⟩
        intro d hd
        rcases List.mem_cons.mp hd with rfl | hd
        · exact l.continues_of_starts d hstart
        · exact hrest d (List.mem_append_left _ hd)
      · rintro ⟨hall, hstart⟩
        refine ⟨hstart, fun d hd => ?_, hkeyword (c :: rest)⟩
        rcases List.mem_append.mp hd with hd | hd
        · exact hall d (List.mem_cons_of_mem _ hd)
        · exact herror d hd

end Names

theorem normalize_errorName (l : Tables) (s : Str) :
    l.normalize (s ++ text "Error") = l.normalize s ++ text "Error" :=
  l.normalize_append s _ fun c hc => (error_letters c hc).1

/-! ### Codes in ASCII -/

/-- The characters of a code but underscores, in small letters, each with whether it
    is a letter that begins a part. -/
def marks (begins : Bool) : Str → List (CodePoint × Bool)
  | [] => []
  | c :: rest =>
    if c = underscore then marks true rest
    else (lowerAscii c, begins && decide (lowerAscii c ≠ upperAscii c)) :: marks false rest

/-- A character as it is marked. -/
def marked (mark : CodePoint × Bool) : CodePoint :=
  if mark.2 then upperAscii mark.1 else mark.1

/-- How a character of a class is marked. -/
def markOf (c : CodePoint) : CodePoint × Bool :=
  (lowerAscii c, decide (lowerAscii c ≠ c))

theorem val_upperAscii (c : CodePoint) :
    (upperAscii c).val = if 0x61 ≤ c.val ∧ c.val ≤ 0x7A then c.val - 0x20 else c.val := by
  unfold upperAscii
  split <;> rfl

theorem val_lowerAscii (c : CodePoint) :
    (lowerAscii c).val = if 0x41 ≤ c.val ∧ c.val ≤ 0x5A then c.val + 0x20 else c.val := by
  unfold lowerAscii
  split <;> rfl

/-- A letter is marked by what it is in either case. -/
theorem marked_lower (c : CodePoint) (begins : Bool) :
    marked (lowerAscii c, begins && decide (lowerAscii c ≠ upperAscii c)) =
      if begins then upperAscii c else lowerAscii c := by
  have hupper : upperAscii (lowerAscii c) = upperAscii c := by
    refine Fin.ext ?_
    rw [val_upperAscii, val_lowerAscii, val_upperAscii]
    grind
  unfold marked
  cases begins with
  | false => rfl
  | true =>
      by_cases heq : lowerAscii c = upperAscii c
      · rw [if_pos rfl, ← heq]
        simp only [Bool.true_and, ne_eq, not_true, decide_false, Bool.false_eq_true, if_false]
      · simp only [Bool.true_and, ne_eq, heq, not_false_eq_true, decide_true, if_true, hupper]

theorem markOf_case (c : CodePoint) (begins : Bool) :
    markOf (if begins then upperAscii c else lowerAscii c) =
      (lowerAscii c, begins && decide (lowerAscii c ≠ upperAscii c)) := by
  have hlower : lowerAscii (lowerAscii c) = lowerAscii c := by
    refine Fin.ext ?_
    rw [val_lowerAscii, val_lowerAscii]
    grind
  have hupper : lowerAscii (upperAscii c) = lowerAscii c := by
    refine Fin.ext ?_
    rw [val_lowerAscii, val_upperAscii, val_lowerAscii]
    grind
  cases begins with
  | false =>
      rw [if_neg Bool.false_ne_true, markOf, hlower]
      simp only [ne_eq, not_true, decide_false, Bool.false_and]
  | true => rw [if_pos rfl, markOf, hupper, Bool.true_and]

/-- A code as it is written in ASCII: its first part goes on with what it has begun. -/
theorem camel_ascii {l : Tables} {capitalize : Str → Str} (hcap : Capitalizes l capitalize)
    {s first : Str} {others : List Str} (hs : ∀ c ∈ s, c.val < 0x80)
    (hparts : s.splitOn underscore = first :: others) :
    ∀ begins : Bool, (if begins then capitalize first else first.map lowerAscii) ++
      others.flatMap capitalize = (marks begins s).map marked := by
  induction s generalizing first others with
  | nil =>
      cases hparts
      intro begins
      cases begins with
      | false => rfl
      | true => exact congrArg (· ++ []) hcap.ascii_nil
  | cons c rest ih =>
      have hrest : ∀ d ∈ rest, d.val < 0x80 := fun d hd => hs d (List.mem_cons_of_mem _ hd)
      rcases List.exists_cons_of_ne_nil (List.splitOn_ne_nil underscore rest) with
        ⟨part, parts, hsplit⟩
      rw [List.splitOn_cons_eq_if_modifyHead] at hparts
      intro begins
      rw [marks]
      split at hparts
      · rename_i hc
        cases hparts
        rw [if_pos (beq_iff_eq.mp hc), ← ih hrest hsplit true, if_pos rfl, hsplit, hcap.ascii_nil,
          List.map_nil, ite_self, List.nil_append, List.flatMap_cons]
      · rename_i hc
        rw [hsplit, List.modifyHead_cons] at hparts
        cases hparts
        have hpart : ∀ d ∈ c :: part, d.val < 0x80 := by
          intro d hd
          rcases List.mem_cons.mp hd with rfl | hd
          · exact hs d List.mem_cons_self
          · have hmem : d ∈ (rest.splitOn underscore).flatten := by
              rw [hsplit]
              exact List.mem_append_left _ hd
            rw [flatten_splitOn] at hmem
            exact hrest d (List.mem_filter.mp hmem).1
        have hc' : c ≠ underscore := fun heq => hc (beq_iff_eq.mpr heq)
        rw [if_neg hc', List.map_cons (f := marked), marked_lower, ← ih hrest hsplit false,
          if_neg Bool.false_ne_true, hcap.ascii_cons c part hpart]
        cases begins <;> rfl

/-- Two codes of ASCII have one class exactly if they have the same letters and digits
    in whatever case, and the same letters begin their parts. -/
theorem sameClass_iff_of_ascii {l : Tables} {capitalize : Str → Str}
    (hcap : Capitalizes l capitalize) {s t : Str} (hs : ∀ c ∈ s, c.val < 0x80)
    (ht : ∀ c ∈ t, c.val < 0x80) :
    SameClass l capitalize s t ↔ marks true s = marks true t := by
  have hcamel : ∀ {u : Str}, (∀ c ∈ u, c.val < 0x80) →
      camel capitalize u = (marks true u).map marked := by
    intro u hu
    rcases List.exists_cons_of_ne_nil (List.splitOn_ne_nil underscore u) with
      ⟨part, parts, hsplit⟩
    rw [← camel_ascii hcap hu hsplit true, camel, hsplit, List.flatMap_cons, if_pos rfl]
  have hmarks : ∀ (u : Str) (begins : Bool), ((marks begins u).map marked).map markOf =
      marks begins u := by
    intro u
    induction u with
    | nil => intro begins; rfl
    | cons c rest ih =>
        intro begins
        rw [marks]
        split
        · exact ih true
        · rw [List.map_cons, List.map_cons, marked_lower, markOf_case, ih]
  have hascii : ∀ (u : Str) (begins : Bool), (∀ c ∈ u, c.val < 0x80) →
      ∀ c ∈ (marks begins u).map marked, c.val < 0x80 := by
    intro u
    induction u with
    | nil => exact fun _ _ c hc => absurd hc List.not_mem_nil
    | cons d rest ih =>
        intro begins hu
        rw [marks]
        split
        · exact ih true fun c hc => hu c (List.mem_cons_of_mem _ hc)
        · rw [List.map_cons, marked_lower, List.forall_mem_cons]
          refine ⟨?_, ih false fun c hc => hu c (List.mem_cons_of_mem _ hc)⟩
          have hd := hu d List.mem_cons_self
          split
          · rw [val_upperAscii]
            split <;> omega
          · rw [val_lowerAscii]
            split <;> omega
  unfold SameClass
  rw [hcamel hs, hcamel ht, l.normalize_of_ascii (hascii s true hs),
    l.normalize_of_ascii (hascii t true ht)]
  exact ⟨fun h => by rw [← hmarks s true, h, hmarks t true], congrArg _⟩

/-! ### What a document names -/

section Documents

variable {N : Type} (doc : N → Value N) (b : Builtins N) (l : Tables)

/-- A schema with a name is an enum. -/
def EnumOf (schemas : Value N) (named : Scalar) (entries : List (Scalar × N)) : Prop :=
  ∃ all node, schemas = .map all ∧ (named, node) ∈ all ∧ doc node = .map entries ∧
    (find (text "enum") entries).isSome ∧ ¬ IsObject doc entries

/-- The values of an enum, if all of them are texts. -/
def enumTexts (entries : List (Scalar × N)) : Option (List Str) :=
  (under doc (text "enum") entries).bind fun v => (elements doc v).bind textsOf

/-- The members of an enum. -/
def enumMembers (named : Scalar) (schema : Value N) : Except Raised (List Member) := do
  let described ← enumDescriptions doc schema
  let values ← iterate doc (← item doc (text "enum") schema)
  values.mapM fun value => member doc b described value (b.str (.scalar named))

/-- What a member is set to. -/
def Member.literal (m : Member) : Str :=
  text "\"" ++ m.value ++ text "\""

/-- The class of an enum with these members. -/
def enumSource (named : Scalar) (opening : List Str) (members : List Member) : Str :=
  joined (text "\n") ((text "class " ++ b.str (.scalar named) ++ text "(StrEnum):") ::
    opening ++ members.flatMap fun m =>
      m.comments ++ [indent ++ m.name ++ text " = " ++ m.literal])

/-- The error codes, each as the member it is named by and the class it is raised as. -/
def errorTable (document : Value N) : Except Raised (List (Str × Str)) := do
  let (codes, _) ← errorCodes doc document
  codes.mapM fun code => do return (← memberName b code (b.str code), ← errorName b code)

/-- The line of an error code. -/
def entryLine (entry : Str × Str) : Str :=
  text "    ErrorCode." ++ entry.1 ++ text ": " ++ entry.2 ++ text ","

/-- The line a class of an error begins with. -/
def classLine (entry : Str × Str) : Str :=
  text "class " ++ entry.2 ++ text "(Refusal):"

/-- Names that are one are of one thing. -/
def Distinct (names : List Str) : Prop :=
  (∀ name ∈ names, Identifier l name) ∧ (names.map l.normalize).Nodup

/-- An enum comes out as it went in: there is a class of it in the module, the members of
    that are named by distinct identifiers, and what each is set to stands for the value it
    is of. -/
def EnumFaithful (models : Str) (named : Scalar) (entries : List (Scalar × N)) : Prop :=
  ∃ members opening, enumMembers doc b named (.map entries) = .ok members ∧
    enumSource b named opening members <:+: models ∧
    Distinct l (members.map Member.name) ∧
    ∃ texts, enumTexts doc entries = some texts ∧
      List.Forall₂ (fun s m => readLiteral l m.literal = some s) texts members

/-- The error codes come out as they went in: each is mapped to a class of its own, and
    the module has that class. -/
def CodesFaithful (client : Str) (document : Value N) : Prop :=
  ∃ table, errorTable doc b document = .ok table ∧
    joined (text "\n") (table.map entryLine) <:+: client ∧
    (∀ entry ∈ table, classLine entry <:+: client) ∧
    Distinct l (table.map Prod.fst) ∧ Distinct l (table.map Prod.snd)

/-- Every enum comes out as it went in, and so do the error codes. -/
def Faithful (document : Value N) (made : Str × Str) : Prop :=
  (∀ schemas named entries, schemasOf doc document = .ok schemas →
    EnumOf doc schemas named entries → EnumFaithful doc b l made.1 named entries) ∧
  CodesFaithful doc b l made.2 document

/-- The values of an enum stand for themselves, and no two of them are alike. -/
def EnumTold (entries : List (Scalar × N)) : Prop :=
  ∀ texts, enumTexts doc entries = some texts →
    (∀ s ∈ texts, Verbatim s) ∧ texts.Pairwise fun s t => ¬ Alike s t

/-- The error codes can name a class, and no two of them name the same member or the
    same class. -/
def CodesTold (document : Value N) : Prop :=
  ∀ codes described texts, errorCodes doc document = .ok (codes, described) →
    textsOf codes = some texts →
    (∀ s ∈ texts, Named l b.capitalize s) ∧
      texts.Pairwise fun s t => ¬ Alike s t ∧ ¬ SameClass l b.capitalize s t

/-- The texts of a document are ones that come out as they went in. -/
def Told (document : Value N) : Prop :=
  (∀ schemas named entries, schemasOf doc document = .ok schemas →
    EnumOf doc schemas named entries → EnumTold doc entries) ∧
  CodesTold doc b l document

/-! ### Members and classes -/

variable {doc b l}

theorem Member.lines_eq (m : Member) :
    m.lines = m.comments ++ [indent ++ m.name ++ text " = " ++ m.literal] := by
  have hquote : text " = \"" = text " = " ++ text "\"" := rfl
  rw [Member.lines, Member.literal, hquote]
  simp only [List.append_assoc]

theorem memberName_eq_ok {value : Value N} {place name : Str} :
    memberName b value place = .ok name ↔ ∃ s, value = .scalar (.text s) ∧ Usable s ∧
      name = (collapsed false s).map upperAscii := by
  cases value with
  | scalar s =>
      cases s with
      | text s =>
          simp only [memberName, Value.scalar.injEq, Scalar.text.injEq, exists_eq_left', Usable]
          cases collapsed false s with
          | nil =>
              constructor
              · intro h
                cases h
              · rintro ⟨⟨_, h, _⟩, _⟩
                cases h
          | cons c rest =>
              simp only [List.map_cons, List.head?_cons, Option.mem_some_iff, exists_eq_left']
              by_cases hdigit : IsDigit (upperAscii c)
              · rw [if_pos hdigit]
                refine ⟨fun h => ?_, fun h => absurd hdigit h.1⟩
                cases h
              · rw [if_neg hdigit, Except.ok.injEq]
                exact ⟨fun h => ⟨hdigit, h.symm⟩, fun h => h.2.symm⟩
      | _ =>
          constructor
          · intro h
            cases h
          · rintro ⟨_, h, _⟩
            cases h
  | seq | map | set =>
      constructor
      · intro h
        cases h
      · rintro ⟨_, h, _⟩
        cases h

/-- A value without a usable name is refused. -/
theorem memberName_of_not_usable {s : Str} (h : ¬ Usable s) (place : Str) :
    ∃ message, memberName b (.scalar (.text s)) place = .error (.refused message) :=
  exists_refused_iff.mpr (settles_memberName.mpr ⟨s, rfl, fun husable => absurd husable h⟩)

theorem Usable.ne_nil {s : Str} (h : Usable s) : s ≠ [] := by
  rintro rfl
  rcases h with ⟨_, hhead, _⟩
  cases hhead

/-- What is made of texts, one by one, is made of a list of them. -/
theorem exists_texts {α : Type} {R : Str → α → Prop} {values : List (Value N)} {made : List α}
    (h : List.Forall₂ (fun v a => ∃ s, v = .scalar (.text s) ∧ R s a) values made) :
    ∃ texts, textsOf values = some texts ∧ List.Forall₂ R texts made := by
  induction h with
  | nil => exact ⟨[], rfl, List.Forall₂.nil⟩
  | cons hone _ ih =>
      rcases hone with ⟨s, rfl, hs⟩
      rcases ih with ⟨texts, htexts, hall⟩
      exact ⟨s :: texts, congrArg (Option.map (s :: ·)) htexts, List.Forall₂.cons hs hall⟩

/-- Something is made of each of a list. -/
theorem exists_of_forall₂ {α β : Type} {R : α → β → Prop} {as : List α} {bs : List β}
    (h : List.Forall₂ R as bs) : ∀ a ∈ as, ∃ b ∈ bs, R a b := by
  induction h with
  | nil => exact fun a ha => absurd ha List.not_mem_nil
  | cons hone _ ih =>
      refine List.forall_mem_cons.mpr ⟨⟨_, List.mem_cons_self, hone⟩, fun a ha => ?_⟩
      rcases ih a ha with ⟨b, hb, hab⟩
      exact ⟨b, List.mem_cons_of_mem _ hb, hab⟩

/-- What is made of each by a function is the list of what that makes. -/
theorem map_eq_of_forall₂ {α β γ : Type} {R : α → β → Prop} {f : α → γ} {g : β → γ}
    {as : List α} {bs : List β} (h : List.Forall₂ R as bs) (hfg : ∀ a b, R a b → g b = f a) :
    bs.map g = as.map f := by
  induction h with
  | nil => rfl
  | cons hone _ ih => rw [List.map_cons, List.map_cons, hfg _ _ hone, ih]

/-- Usable texts are named by distinct identifiers exactly if no two are alike. -/
theorem distinct_memberNames {texts : List Str} (h : ∀ s ∈ texts, Usable s) :
    Distinct l (texts.map fun s => (collapsed false s).map upperAscii) ↔
      texts.Pairwise fun s t => ¬ Alike s t := by
  have hidentifiers : ∀ name ∈ texts.map fun s => (collapsed false s).map upperAscii,
      Identifier l name := by
    intro name hname
    rcases List.mem_map.mp hname with ⟨s, hs, rfl⟩
    exact identifier_memberName l (h s hs)
  unfold Distinct
  rw [and_iff_right hidentifiers, List.map_map, List.Nodup, List.pairwise_map]
  refine List.Pairwise.iff_of_mem fun hs ht => not_congr ?_
  rw [← memberName_eq_iff (h _ hs).ne_nil (h _ ht).ne_nil]
  simp only [Function.comp_apply, normalize_memberName]

/-- Codes are raised as distinct classes exactly if each can name one and no two the
    same. -/
theorem distinct_errorNames (hcap : Capitalizes l b.capitalize) {texts : List Str} :
    Distinct l (texts.map fun s => camel b.capitalize s ++ text "Error") ↔
      (∀ s ∈ texts, Named l b.capitalize s) ∧
        texts.Pairwise fun s t => ¬ SameClass l b.capitalize s t := by
  unfold Distinct SameClass
  rw [List.forall_mem_map, List.map_map, List.Nodup, List.pairwise_map]
  refine and_congr (forall₂_congr fun s _ => identifier_errorName hcap s) ?_
  simp only [Function.comp_apply, normalize_errorName, ne_eq, List.append_left_inj]

/-- A member is of a value: it is named by what is left of it once folded, and set to
    it. -/
def MemberOf (s : Str) (m : Member) : Prop :=
  Usable s ∧ m.name = (collapsed false s).map upperAscii ∧ m.value = s

theorem exists_of_member {described value : Value N} {place : Str} {m : Member}
    (h : member doc b described value place = .ok m) :
    ∃ s, value = .scalar (.text s) ∧ MemberOf s m := by
  unfold member at h
  rcases bind_eq_ok.mp h with ⟨described, _, h⟩
  rcases bind_eq_ok.mp h with ⟨comments, _, h⟩
  rcases bind_eq_ok.mp h with ⟨name, hname, h⟩
  cases h
  rcases memberName_eq_ok.mp hname with ⟨s, rfl, husable, rfl⟩
  exact ⟨s, rfl, husable, rfl, rfl⟩

/-- An enum is made into the class of its members, each of which is of one of its
    texts. -/
theorem exists_of_enumClass {named : Scalar} {entries : List (Scalar × N)} {block : Str}
    (h : enumClass doc b named (.map entries) = .ok block) :
    ∃ members opening texts, enumMembers doc b named (.map entries) = .ok members ∧
      block = enumSource b named opening members ∧ enumTexts doc entries = some texts ∧
      List.Forall₂ MemberOf texts members := by
  unfold enumClass at h
  rcases bind_eq_ok.mp h with ⟨_, _, h⟩
  rcases bind_eq_ok.mp h with ⟨kind, _, h⟩
  split at h
  · cases h
  · rcases bind_eq_ok.mp h with ⟨described, hdescribed, h⟩
    rcases bind_eq_ok.mp h with ⟨_, _, h⟩
    rcases bind_eq_ok.mp h with ⟨opening, _, h⟩
    rcases bind_eq_ok.mp h with ⟨listed, hlisted, h⟩
    rcases bind_eq_ok.mp h with ⟨values, hvalues, h⟩
    rcases bind_eq_ok.mp h with ⟨members, hmembers, h⟩
    cases h
    rcases exists_texts ((mapM_eq_ok.mp hmembers).imp fun _ _ => exists_of_member) with
      ⟨texts, htexts, hall⟩
    refine ⟨members, opening, texts, ?_, ?_, ?_, hall⟩
    · simp only [enumMembers, hdescribed, hlisted, hvalues, ok_bind, hmembers]
    · rw [enumSource, ← funext Member.lines_eq]
    · rcases item_eq_ok.mp hlisted with ⟨_, heq, hunder⟩
      cases heq
      rw [enumTexts, hunder, Option.bind_some, iterate_eq_ok.mp hvalues, Option.bind_some, htexts]

theorem schemaBlock_of_isEnum {frames : Nat} {named : Scalar} {entries : List (Scalar × N)}
    {schemas : Value N} (henum : (find (text "enum") entries).isSome)
    (hobject : ¬ IsObject doc entries) :
    schemaBlock doc b frames named (.map entries) schemas =
      enumClass doc b named (.map entries) := by
  unfold schemaBlock
  rw [isEnum_map, ok_bind]
  simp only [henum, hobject, not_false_eq_true, and_self, decide_true, if_true]

/-- Every enum has a block of the module of models. -/
theorem exists_enumClass_of_modelsSource {header models : Str} {frames : Nat}
    {document schemas : Value N} {named : Scalar} {entries : List (Scalar × N)}
    (h : modelsSource doc b header frames document = .ok models)
    (hschemas : schemasOf doc document = .ok schemas) (henum : EnumOf doc schemas named entries) :
    ∃ block, enumClass doc b named (.map entries) = .ok block ∧ block <:+: models := by
  rcases henum with ⟨all, node, rfl, hnamed, hnode, hsome, hobject⟩
  rcases exists_block_of_modelsSource h hschemas hnamed with ⟨block, hmade, hblock⟩
  rw [hnode, schemaBlock_of_isEnum hsome hobject] at hmade
  exact ⟨block, hmade, hblock⟩

/-- An enum comes out as it went in exactly if its values do. -/
theorem enumFaithful_iff {models : Str} {named : Scalar} {entries : List (Scalar × N)}
    {block : Str} (h : enumClass doc b named (.map entries) = .ok block)
    (hblock : block <:+: models) :
    EnumFaithful doc b l models named entries ↔ EnumTold doc entries := by
  rcases exists_of_enumClass h with ⟨members, opening, texts, hmembers, rfl, htexts, hall⟩
  have husable : ∀ s ∈ texts, Usable s := by
    intro s hs
    rcases exists_of_forall₂ hall s hs with ⟨_, _, hone⟩
    exact hone.1
  have hnames : members.map Member.name =
      texts.map fun s => (collapsed false s).map upperAscii :=
    map_eq_of_forall₂ hall fun _ _ hs => hs.2.1
  -- What a member is set to is its value between two quotes.
  have hvalues : List.Forall₂ (fun s m => readLiteral l m.literal = some s) texts members ↔
      ∀ s ∈ texts, Verbatim s := by
    have hone : ∀ s m, MemberOf s m → (readLiteral l m.literal = some s ↔ Verbatim s) := by
      rintro s m ⟨_, _, rfl⟩
      exact Lexis.readLiteral_quoted l
    clear hmembers hblock h htexts hnames husable
    induction hall with
    | nil => exact iff_of_true List.Forall₂.nil fun s hs => absurd hs List.not_mem_nil
    | cons hfirst _ ih =>
        rw [List.forall₂_cons, List.forall_mem_cons]
        exact and_congr (hone _ _ hfirst) ih
  unfold EnumFaithful EnumTold
  simp only [hmembers, htexts, Except.ok.injEq, Option.some.injEq, exists_eq_left', forall_eq']
  constructor
  · rintro ⟨members', opening', rfl, _, hdistinct, hread⟩
    rw [hnames] at hdistinct
    exact ⟨hvalues.mp hread, (distinct_memberNames husable).mp hdistinct⟩
  · rintro ⟨hverbatim, hpairwise⟩
    refine ⟨members, opening, rfl, hblock, ?_, hvalues.mpr hverbatim⟩
    rw [hnames]
    exact (distinct_memberNames husable).mpr hpairwise

/-! ### The error codes -/

/-- A code is listed by the member it is named by, and with the class it is raised as. -/
def EntryOf (b : Builtins N) (s : Str) (entry : Str × Str) : Prop :=
  Usable s ∧ entry.1 = (collapsed false s).map upperAscii ∧
    entry.2 = camel b.capitalize s ++ text "Error"

theorem errorName_eq_ok {code : Value N} {name : Str} :
    errorName b code = .ok name ↔
      ∃ s, code = .scalar (.text s) ∧ name = camel b.capitalize s ++ text "Error" := by
  cases code with
  | scalar s =>
      cases s with
      | text s =>
          simp only [errorName, Value.scalar.injEq, Scalar.text.injEq, exists_eq_left',
            Except.ok.injEq]
          exact eq_comm
      | _ => exact ⟨nofun, fun ⟨_, h, _⟩ => absurd h nofun⟩
  | seq | map | set => exact ⟨nofun, fun ⟨_, h, _⟩ => absurd h nofun⟩

/-- One line after another is written of what a table has. -/
theorem exists_table {codes : List (Value N)} {lines : List Str}
    (h : List.Forall₂ (fun code line => (do
      let name ← memberName b code (b.str code)
      let error ← errorName b code
      return text "    ErrorCode." ++ name ++ text ": " ++ error ++ text ",") =
        (.ok line : Except Raised Str)) codes lines) :
    ∃ table, List.Forall₂ (fun code (entry : Str × Str) =>
      memberName b code (b.str code) = .ok entry.1 ∧ errorName b code = .ok entry.2) codes table ∧
      lines = table.map entryLine := by
  induction h with
  | nil => exact ⟨[], List.Forall₂.nil, rfl⟩
  | cons hone _ ih =>
      rcases ih with ⟨table, htable, rfl⟩
      rcases bind_eq_ok.mp hone with ⟨name, hname, hone⟩
      rcases bind_eq_ok.mp hone with ⟨error, herror, hone⟩
      cases hone
      exact ⟨(name, error) :: table, List.Forall₂.cons ⟨hname, herror⟩ htable, rfl⟩

/-- The codes are listed with their classes, in their order. -/
theorem exists_of_codeEntries {document : Value N} {entries : Str}
    (h : codeEntries doc b document = .ok entries) :
    ∃ codes described table texts, errorCodes doc document = .ok (codes, described) ∧
      errorTable doc b document = .ok table ∧
      entries = joined (text "\n") (table.map entryLine) ∧ textsOf codes = some texts ∧
      List.Forall₂ (EntryOf b) texts table := by
  unfold codeEntries at h
  rcases bind_eq_ok.mp h with ⟨⟨codes, described⟩, hcodes, h⟩
  rcases bind_eq_ok.mp h with ⟨lines, hlines, h⟩
  cases h
  rcases exists_table (mapM_eq_ok.mp hlines) with ⟨table, htable, rfl⟩
  have hentries : List.Forall₂ (fun code entry => ∃ s, code = .scalar (.text s) ∧
      EntryOf b s entry) codes table := by
    refine htable.imp fun code entry hone => ?_
    rcases memberName_eq_ok.mp hone.1 with ⟨s, rfl, husable, hname⟩
    rcases errorName_eq_ok.mp hone.2 with ⟨_, heq, herror⟩
    cases heq
    exact ⟨s, rfl, husable, hname, herror⟩
  rcases exists_texts hentries with ⟨texts, htexts, hall⟩
  refine ⟨codes, described, table, texts, hcodes, ?_, rfl, htexts, hall⟩
  simp only [errorTable, hcodes, ok_bind]
  refine mapM_eq_ok.mpr (htable.imp fun code entry hone => ?_)
  rw [hone.1, ok_bind, hone.2]
  rfl

/-- Every code that is a text has a class in the module. -/
theorem classLine_infix {document : Value N} {classes name : Str} {codes : List (Value N)}
    {described : Value N} {s : Str} (h : errorClasses doc b document = .ok classes)
    (hcodes : errorCodes doc document = .ok (codes, described))
    (hs : .scalar (.text s) ∈ codes) :
    classLine (name, camel b.capitalize s ++ text "Error") <:+: classes := by
  unfold errorClasses at h
  rw [hcodes, ok_bind] at h
  rcases bind_eq_ok.mp h with ⟨blocks, hblocks, h⟩
  cases h
  rcases exists_mem_of_mapM hblocks hs with ⟨block, hblock, hmade⟩
  rcases bind_eq_ok.mp hmade with ⟨error, herror, hmade⟩
  rcases errorName_eq_ok.mp herror with ⟨_, heq, rfl⟩
  cases heq
  rcases bind_eq_ok.mp hmade with ⟨_, _, hmade⟩
  rcases bind_eq_ok.mp hmade with ⟨lines, _, hmade⟩
  cases hmade
  refine (infix_joined ?_).trans (List.prefix_append _ _).isInfix
  exact List.mem_flatten.mpr ⟨_, hblock, List.mem_cons_of_mem _ List.mem_cons_self⟩

theorem mem_of_textsOf {values : List (Value N)} {texts : List Str} {s : Str}
    (h : textsOf values = some texts) (hs : s ∈ texts) : .scalar (.text s) ∈ values := by
  induction values generalizing texts with
  | nil =>
      cases h
      cases hs
  | cons v values ih =>
      unfold textsOf at h
      split at h
      · rename_i heq
        cases heq
      · rename_i heq
        cases heq
        rcases Option.map_eq_some_iff.mp h with ⟨rest, hrest, rfl⟩
        rcases List.mem_cons.mp hs with rfl | hs
        · exact List.mem_cons_self
        · exact List.mem_cons_of_mem _ (ih hrest hs)
      · cases h

/-- The codes come out as they went in exactly if they can, each by itself. -/
theorem codesFaithful_iff (hcap : Capitalizes l b.capitalize) {document : Value N}
    {classes entries client : Str} (hclasses : errorClasses doc b document = .ok classes)
    (hentries : codeEntries doc b document = .ok entries) (hclasses' : classes <:+: client)
    (hentries' : entries <:+: client) :
    CodesFaithful doc b l client document ↔ CodesTold doc b l document := by
  rcases exists_of_codeEntries hentries with
    ⟨codes, described, table, texts, hcodes, htable, rfl, htexts, hall⟩
  have husable : ∀ s ∈ texts, Usable s := by
    intro s hs
    rcases exists_of_forall₂ hall s hs with ⟨_, _, hone⟩
    exact hone.1
  have hlines : ∀ entry ∈ table, classLine entry <:+: client := by
    intro entry hentry
    rcases exists_of_forall₂ hall.flip entry hentry with ⟨s, hs, hone⟩
    have hline : classLine (entry.1, camel b.capitalize s ++ text "Error") <:+: classes :=
      classLine_infix hclasses hcodes (mem_of_textsOf htexts hs)
    rw [← hone.2.2] at hline
    exact hline.trans hclasses'
  have hmembers : table.map Prod.fst = texts.map fun s => (collapsed false s).map upperAscii :=
    map_eq_of_forall₂ hall fun _ _ hs => hs.2.1
  have herrors : table.map Prod.snd = texts.map fun s => camel b.capitalize s ++ text "Error" :=
    map_eq_of_forall₂ hall fun _ _ hs => hs.2.2
  have hdistinct : Distinct l (table.map Prod.fst) ∧ Distinct l (table.map Prod.snd) ↔
      (∀ s ∈ texts, Named l b.capitalize s) ∧
        texts.Pairwise fun s t => ¬ Alike s t ∧ ¬ SameClass l b.capitalize s t := by
    rw [hmembers, herrors, distinct_memberNames husable, distinct_errorNames hcap,
      List.pairwise_and_iff, and_left_comm]
  unfold CodesFaithful CodesTold
  simp only [htable, hcodes, Except.ok.injEq, exists_eq_left', Prod.mk.injEq]
  constructor
  · rintro ⟨_, _, h⟩ codes' described' texts' ⟨rfl, rfl⟩ htexts'
    cases htexts.symm.trans htexts'
    exact hdistinct.mp h
  · intro h
    exact ⟨hentries', hlines, hdistinct.mpr (h codes described texts ⟨rfl, rfl⟩ htexts)⟩

/-! ### Whole documents -/

/-- A document that is accepted comes out as it went in exactly if its texts can. -/
theorem faithful_iff_told (hcap : Capitalizes l b.capitalize) {fixed : Fixed} {frames : Nat}
    {document : Value N} {made : Str × Str}
    (h : sources doc b fixed frames document = .ok made) :
    Faithful doc b l document made ↔ Told doc b l document := by
  unfold sources at h
  rcases bind_eq_ok.mp h with ⟨models, hmodels, h⟩
  rcases bind_eq_ok.mp h with ⟨client, hclient, h⟩
  cases h
  unfold clientSource at hclient
  rcases bind_eq_ok.mp hclient with ⟨ops, _, hclient⟩
  rcases bind_eq_ok.mp hclient with ⟨classes, hclasses, hclient⟩
  rcases bind_eq_ok.mp hclient with ⟨entries, hentries, hclient⟩
  rcases bind_eq_ok.mp hclient with ⟨methods, _, hclient⟩
  have hheld : ∀ part ∈ [fixed.clientErrorsBase, classes, fixed.codesOpen, entries],
      part <:+: client := by
    -- The parts stand between the imports and the methods.
    cases hclient
    intro part hpart
    refine List.IsInfix.trans (infix_joined ?_) ((List.suffix_append _ _).isInfix.trans
      (List.prefix_append _ _).isInfix)
    have hbody : part ∈ [fixed.clientErrorsBase, classes, fixed.codesOpen, entries,
        fixed.clientHelpers] := List.mem_append_left [_] hpart
    simp only [List.append_assoc]
    exact List.mem_append_left _ hbody
  refine and_congr ?_ (codesFaithful_iff hcap hclasses hentries (hheld _ ?_) (hheld _ ?_))
  · -- Every enum of the document has its class in the models.
    refine forall_congr' fun schemas => forall_congr' fun named => forall_congr' fun entries => ?_
    refine forall_congr' fun hschemas => forall_congr' fun henum => ?_
    rcases exists_enumClass_of_modelsSource hmodels hschemas henum with ⟨block, hblock, hheld⟩
    exact enumFaithful_iff hblock hheld
  · exact List.mem_cons_of_mem _ List.mem_cons_self
  · simp only [List.mem_cons, true_or, or_true]

/-- A value without a usable name is refused, and a document that is accepted comes out as
    it went in exactly if its enums have values that stand for themselves, and no two that
    are alike, and its codes can name classes, and no two the same member or class. -/
theorem faithful_iff (doc : N → Value N) (b : Builtins N) (l : Tables) (fixed : Fixed)
    (frames : Nat) (document : Value N) (made : Str × Str) (hcap : Capitalizes l b.capitalize)
    (h : sources doc b fixed frames document = .ok made) :
    (∀ s place, ¬ Usable s →
      ∃ message, memberName b (.scalar (.text s)) place = .error (.refused message)) ∧
    (Faithful doc b l document made ↔ Told doc b l document) :=
  ⟨fun _ place hs => memberName_of_not_usable hs place, faithful_iff_told hcap h⟩

end Documents

/-! ### Codes of a document -/

/-- The schema of the error codes. -/
def codesSchema (codes : List Str) : List (Scalar × Tree) :=
  [(.text (text "type"), .scalar (.text (text "string"))),
    (.text (text "enum"), .seq (codes.map fun code => .scalar (.text code)))]

/-- A document of error codes, and nothing else. -/
def codesDocument (codes : List Str) : Tree :=
  .map [(.text (text "openapi"), .scalar (.text (text "3.1.0"))),
    (.text (text "info"), .map []), (.text (text "paths"), .map []),
    (.text (text "components"), .map [(.text (text "schemas"),
      .map [(.text (text "ErrorCode"), .map (codesSchema codes))])])]

/-- The first letter as a capital, and the others small. -/
def capitalizeAscii : Str → Str
  | [] => []
  | c :: rest => upperAscii c :: rest.map lowerAscii

/-- The tables of a language whose letters are those of ASCII. -/
def inAscii : Builtins Tree :=
  { written with capitalize := capitalizeAscii }

theorem continues_iff {c : CodePoint} : Lexis.ascii.continues c = true ↔
    (0x41 ≤ c.val ∧ c.val ≤ 0x5A ∨ 0x61 ≤ c.val ∧ c.val ≤ 0x7A) ∨ c.val = 0x5F ∨
      (0x30 ≤ c.val ∧ c.val ≤ 0x39) := by
  refine decide_eq_true_iff.trans ?_
  rw [Lexis.IsLetter, Fin.ext_iff]
  rfl

theorem continues_upperAscii (c : CodePoint) :
    Lexis.ascii.continues (upperAscii c) = true ↔ Lexis.ascii.continues c = true := by
  rw [continues_iff, continues_iff, val_upperAscii]
  split <;> omega

theorem continues_lowerAscii (c : CodePoint) :
    Lexis.ascii.continues (lowerAscii c) = true ↔ Lexis.ascii.continues c = true := by
  rw [continues_iff, continues_iff, val_lowerAscii]
  split <;> omega

theorem capitalizes_ascii : Capitalizes Lexis.ascii capitalizeAscii where
  continues s := by
    cases s with
    | nil => exact Iff.rfl
    | cons c rest =>
        rw [capitalizeAscii, List.forall_mem_cons, List.forall_mem_cons, List.forall_mem_map,
          continues_upperAscii]
        simp only [continues_lowerAscii]
  head _ _ := rfl
  ne_nil _ := List.cons_ne_nil _ _
  ascii_nil := rfl
  ascii_cons _ _ _ := rfl

theorem textsOf_codes (codes : List Str) :
    textsOf ((codes.map fun code => Tree.scalar (.text code)).map Tree.value) = some codes := by
  induction codes with
  | nil => rfl
  | cons code codes ih =>
      rw [List.map_cons, List.map_cons, Tree.value, textsOf, ih]
      rfl

theorem told_codes {codes : List Str} (hverbatim : ∀ s ∈ codes, Verbatim s)
    (hnamed : ∀ s ∈ codes, Named Lexis.ascii capitalizeAscii s)
    (hascii : ∀ s ∈ codes, s.all (·.val < 0x80))
    (hpairwise : codes.Pairwise fun s t => ¬ Alike s t ∧ marks true s ≠ marks true t) :
    Told Tree.value inAscii Lexis.ascii (codesDocument codes).value := by
  constructor
  · rintro schemas named entries hschemas ⟨all, node, rfl, hmem, hnode, _⟩ texts htexts
    cases hschemas
    cases List.mem_singleton.mp hmem
    cases hnode
    have htexts' : enumTexts Tree.value (codesSchema codes) = some codes := textsOf_codes codes
    cases htexts.symm.trans htexts'
    exact ⟨hverbatim, hpairwise.imp And.left⟩
  · rintro found described texts hcodes htexts
    have hfound : errorCodes Tree.value (codesDocument codes).value = .ok
        ((codes.map fun code => Tree.scalar (.text code)).map Tree.value, .map []) := rfl
    cases hfound.symm.trans hcodes
    cases htexts.symm.trans (textsOf_codes codes)
    refine ⟨hnamed, (List.Pairwise.iff_of_mem fun hs ht => ?_).mpr hpairwise⟩
    have hlt : ∀ s ∈ codes, ∀ c ∈ s, c.val < 0x80 := fun s hs c hc =>
      of_decide_eq_true (List.all_eq_true.mp (hascii s hs) c hc)
    exact and_congr_right fun _ => not_congr
      (sameClass_iff_of_ascii capitalizes_ascii (hlt _ hs) (hlt _ ht))

/-- Two codes that can be told apart come out as they went in. -/
theorem faithful_clear : ∃ made,
    sources Tree.value inAscii ⟨[], [], [], [], [], []⟩ 1000
      (codesDocument [text "not_found", text "conflict"]).value = .ok made ∧
    Faithful Tree.value inAscii Lexis.ascii
      (codesDocument [text "not_found", text "conflict"]).value made := by
  have hok : (sources Tree.value inAscii ⟨[], [], [], [], [], []⟩ 1000
      (codesDocument [text "not_found", text "conflict"]).value).isOk := by decide +kernel
  rcases exists_of_isOk hok with ⟨made, hmade⟩
  refine ⟨made, hmade, (faithful_iff Tree.value inAscii Lexis.ascii _ 1000 _ made
    capitalizes_ascii hmade).2.mpr (told_codes ?_ ?_ ?_ ?_)⟩
  · decide +kernel
  · decide +kernel
  · decide +kernel
  · decide +kernel

/-- Of two codes that differ in a dash, one would have to be renamed. -/
theorem not_faithful_alike :
    ¬ ∀ (b : Builtins Tree) (l : Tables) (fixed : Fixed) (frames : Nat) (document : Value Tree)
      (made : Str × Str), Capitalizes l b.capitalize →
      sources Tree.value b fixed frames document = .ok made →
        Faithful Tree.value b l document made := by
  intro h
  have hok : (sources Tree.value inAscii ⟨[], [], [], [], [], []⟩ 1000
      (codesDocument [text "not-found", text "not_found"]).value).isOk := by decide +kernel
  rcases exists_of_isOk hok with ⟨made, hmade⟩
  have htold := (faithful_iff_told capitalizes_ascii hmade).mp
    (h inAscii Lexis.ascii _ 1000 _ made capitalizes_ascii hmade)
  have hcodes := (htold.2 _ _ _ rfl (textsOf_codes _)).2
  exact (List.rel_of_pairwise_cons hcodes List.mem_cons_self).1 (by decide +kernel)

end Codegen

end ClaimTriage
