import ClaimTriage.Evaluation.Shapes
import ClaimTriage.Theory.Except

/-!
# What Is Written Is Read

A set or a file of answers is written one JSON value on a line, every character
that is not ASCII as it is. What a line is, though, is not JSON's to say: the
reader divides the file where any language ends a line, and three characters do
that which a JSON string may hold as they are. A case that holds one is divided,
and what is left of it on either side is no JSON.

## Main definitions

* `writtenLines`: The file of some values.
* `Carried`: What is read as it is written, in a file of lines.
* `SetReadsBack`, `AnswersReadBack`: A file is read as what was written.

## Theorems

* `readBack_iff`: When a set and its answers are read as they were written.
-/

namespace ClaimTriage

namespace Evaluation

open Theory Text

/-- How a line is parsed. -/
def loadsOf (L : Library) (frames : Nat) (s : Str) : Loaded Value :=
  match Value.loads L.read frames s with
  | .ok v => .value v
  | .error (.malformed what rest) => .malformed (Value.located s what rest)
  | .error .overlong => .overlong
  | .error .nested => .nested

/-- What can be written: an integer with no more digits than are converted, and a
    string UTF-8 has bytes for. -/
def Writable : Value → Prop
  | .int n => Value.Convertible n
  | .str s => Value.Encodable s
  | _ => True

instance (v : Value) : Decidable (Writable v) :=
  match v with
  | .int n => inferInstanceAs (Decidable (Value.Convertible n))
  | .str s => inferInstanceAs (Decidable (Value.Encodable s))
  | .null | .bool _ | .float _ | .arr _ | .obj _ => isTrue trivial

/-- Values one on a line, or none where one of them cannot be written. -/
def writtenLines (vs : List Value) : Option Str :=
  if ∀ v ∈ vs, ∀ a ∈ v.atoms, Writable a then
    some (vs.flatMap fun v => Value.dumps Value.spaced 0 v ++ [0x0A])
  else none

/-- The characters that end a line and stand in a JSON string as they are. -/
def rawBreaks : Str :=
  [0x85, 0x2028, 0x2029]

/-- What is read as it is written, in a file of lines. -/
def Carried : Value → Prop
  | .int n => Value.Convertible n
  | .str s => Value.Encodable s ∧ ∀ c ∈ s, c ∉ rawBreaks
  | _ => True

instance (v : Value) : Decidable (Carried v) :=
  match v with
  | .int n => inferInstanceAs (Decidable (Value.Convertible n))
  | .str s => @instDecidableAnd _ _ _ (List.decidableBAll (· ∉ rawBreaks) s)
  | .null | .bool _ | .float _ | .arr _ | .obj _ => isTrue trivial

theorem writable_of_carried {v : Value} (h : Carried v) : Writable v := by
  cases v with
  | str s => exact h.1
  | int n => exact h
  | null | bool | float | arr | obj => trivial

theorem carried_of_writable {v : Value} (h : Writable v)
    (hraw : ∀ s, v = .str s → ∀ c ∈ s, c ∉ rawBreaks) : Carried v := by
  cases v with
  | str s => exact ⟨h, hraw s rfl⟩
  | int n => exact h
  | null | bool | float | arr | obj => trivial

/-- Every value is read as it is written. -/
def CarriedAll (vs : List Value) : Prop :=
  ∀ v ∈ vs, ∀ a ∈ v.atoms, Carried a

instance (vs : List Value) : Decidable (CarriedAll vs) :=
  inferInstanceAs (Decidable (∀ v ∈ vs, ∀ a ∈ v.atoms, Carried a))

theorem exists_writtenLines {vs : List Value} (h : CarriedAll vs) :
    ∃ content, writtenLines vs = some content :=
  ⟨_, if_pos fun v hv a ha => writable_of_carried (h v hv a ha)⟩

section Lines

variable {L : Library} {frames : Nat}

theorem isBreak_iff {c : CodePoint} (h : 0x20 ≤ c.val) : IsBreak c ↔ c ∈ rawBreaks := by
  have hvals : rawBreaks.map Fin.val = [0x85, 0x2028, 0x2029] := rfl
  have hmem : c ∈ rawBreaks ↔ c.val ∈ [0x85, 0x2028, 0x2029] := by
    rw [← hvals, List.mem_map]
    exact ⟨fun h => ⟨c, h, rfl⟩, fun ⟨d, hd, heq⟩ => Fin.ext heq ▸ hd⟩
  rw [hmem]
  unfold IsBreak
  simp only [List.mem_cons, List.not_mem_nil, or_false]
  omega

theorem le_of_mem_rawBreaks {c : CodePoint} (h : c ∈ rawBreaks) : 0x7F ≤ c.val := by
  simp only [rawBreaks, List.mem_cons, List.not_mem_nil, or_false] at h
  rcases h with rfl | rfl | rfl <;> decide

/-- The text of a value holds a break exactly if one of its strings does. -/
theorem break_iff {v : Value} (hstable : ∀ a ∈ v.atoms, Value.Stable L.read a) :
    (∀ c ∈ Value.dumps Value.spaced 0 v, ¬ IsBreak c) ↔
      ∀ s, Value.str s ∈ v.atoms → ∀ c ∈ s, c ∉ rawBreaks := by
  -- What the serialiser writes of its own is plain, and no break.
  have hplain : ∀ c : CodePoint, 0x20 ≤ c.val → c.val < 0x7F → ¬ IsBreak c := by
    intro c hc hlt hbreak
    rw [isBreak_iff hc] at hbreak
    have hval := le_of_mem_rawBreaks hbreak
    omega
  constructor
  · -- A break in a string stands in the text as it does in the string.
    intro h s hs c hc hraw
    have hval := le_of_mem_rawBreaks hraw
    exact h c (Value.mem_dumps _ hc hval 0 v hs) ((isBreak_iff (by omega)).mpr hraw)
  · intro h
    refine Value.forall_mem_dumps hplain (Value.spaced_all (by decide)) 0 v fun a ha => ?_
    have hatom := hstable a ha
    cases a with
    -- A string is the one atom whose text is not plain.
    | str s => exact fun c hc hval hbreak => h s ha c hc ((isBreak_iff hval).mp hbreak)
    | float written => exact hatom.1
    | null | bool | int | arr | obj => trivial

/-- What stands on the lines that are filled, and their numbers. -/
theorem lines_file (path content : Str) :
    ∃ found, lines path (.file (.ok content)) = .ok found ∧
      found.map Prod.fst = (filled (splitLines content)).map strip := by
  refine ⟨_, rfl, ?_⟩
  -- The numbers the lines are given play no part in what they hold.
  have hnumbered : ∀ (ls : List Str) (n : Nat),
      (((numbered n ls).filter fun l => strip l.1 ≠ []).map fun l => (strip l.1, l.2)).map
        Prod.fst = (filled ls).map strip := by
    intro ls
    induction ls with
    | nil => exact fun _ => rfl
    | cons line ls ih =>
        intro n
        unfold filled
        rw [numbered, List.filter_cons, List.filter_cons]
        split
        · rw [List.map_cons, List.map_cons, List.map_cons, ih]
          rfl
        · exact ih (n + 1)
  exact hnumbered _ 1

theorem written_eq_flatMap (vs : List Value) :
    (vs.flatMap fun v => Value.dumps Value.spaced 0 v ++ [0x0A]) =
      (vs.map (Value.dumps Value.spaced 0)).flatMap (· ++ [0x0A]) := by
  rw [List.flatMap_map]

variable {vs : List Value} (hobj : ∀ v ∈ vs, ∃ fs, v = .obj fs)
  (hstable : ∀ v ∈ vs, ∀ a ∈ v.atoms, Value.Stable L.read a)

include hobj

theorem trimmed_written : ∀ s ∈ vs.map (Value.dumps Value.spaced 0), Trimmed s := by
  rw [List.forall_mem_map]
  intro v hv
  rcases hobj v hv with ⟨fs, rfl⟩
  exact Value.trimmed_dumps _ 0 fs

include hstable

/-- The values of a file that is read line by line stand on a line each, if no string of theirs
    holds a break. -/
theorem lines_written (path : Str) {content : Str} (hcarried : CarriedAll vs)
    (hcontent : writtenLines vs = some content) :
    ∃ found, lines path (.file (.ok content)) = .ok found ∧
      found.map Prod.fst = vs.map (Value.dumps Value.spaced 0) := by
  -- A dumped value is one line, and nothing is stripped off it.
  have hbreaks : ∀ s ∈ vs.map (Value.dumps Value.spaced 0), ∀ c ∈ s, ¬ IsBreak c := by
    rw [List.forall_mem_map]
    exact fun v hv => (break_iff (hstable v hv)).mpr fun s hs => (hcarried v hv (.str s) hs).2
  have htrimmed := trimmed_written hobj
  unfold writtenLines at hcontent
  split at hcontent
  · cases hcontent
    rcases lines_file path _ with ⟨found, hfound, htexts⟩
    refine ⟨found, hfound, ?_⟩
    rw [htexts, written_eq_flatMap vs, filled_flatMap htrimmed hbreaks]
    refine (List.map_congr_left fun s hs => ?_).trans (List.map_id _)
    exact strip_of_trimmed (htrimmed s hs)
  · cases hcontent

/-- And only then are there no more lines than values. -/
theorem carried_of_length {path content : Str} (hcontent : writtenLines vs = some content)
    {found : List (Str × Nat)} (hfound : lines path (.file (.ok content)) = .ok found)
    (hlength : found.length ≤ vs.length) : CarriedAll vs := by
  have htrimmed := trimmed_written hobj
  unfold writtenLines at hcontent
  split at hcontent
  · rename_i hwritable
    cases hcontent
    rcases lines_file path (vs.flatMap fun v => Value.dumps Value.spaced 0 v ++ [0x0A]) with
      ⟨found', hfound', htexts⟩
    rw [hfound] at hfound'
    cases hfound'
    -- There are no more lines than there were values, so none was broken in two.
    have hle := congrArg List.length htexts
    rw [List.length_map, List.length_map, written_eq_flatMap vs] at hle
    have hbreaks := (length_filled_flatMap_iff htrimmed).mp
      (by rw [List.length_map, ← hle]; exact hlength)
    rw [List.forall_mem_map] at hbreaks
    intro v hv a ha
    refine carried_of_writable (hwritable v hv a ha) ?_
    rintro s rfl
    exact (break_iff (hstable v hv)).mp (hbreaks v hv) s ha
  · cases hcontent

end Lines

section Read

variable {L : Library} {frames : Nat} (hframes : 4 ≤ frames)

/-- What is carried and the machine's is read as it is written. -/
theorem sound_of_carried {v : Value} (hstable : ∀ a ∈ v.atoms, Value.Stable L.read a)
    (hcarried : ∀ a ∈ v.atoms, Carried a) : ∀ a ∈ v.atoms, Value.Sound L.read a := by
  intro a ha
  have hatom := hstable a ha
  have hwritable := writable_of_carried (hcarried a ha)
  cases a with
  | int n => exact hwritable
  | float written => exact hatom
  | null | bool | str | arr | obj => trivial

variable {α : Type} (S : Shape L α)

theorem validated_dump {a : α} (h : S.Good a) (where_ : Str) :
    validated S.model (S.dump a) where_ = .ok a := by
  unfold validated Shape.model
  simp only [S.fits_dump a h]

include hframes

/-- The text of a value is parsed as the value. -/
theorem loadsOf_dumps {v : Value} (hstable : ∀ a ∈ v.atoms, Value.Stable L.read a)
    (hframed : ∀ n, Value.Framed (n + 4) v) (hcarried : ∀ a ∈ v.atoms, Carried a) :
    loadsOf L frames (Value.dumps Value.spaced 0 v) = .value v := by
  rcases Nat.exists_eq_add_of_le' hframes with ⟨n, rfl⟩
  unfold loadsOf
  rw [Value.loads_dumps (sound_of_carried hstable hcarried) (hframed n)]

theorem parsed_dump {a : α} (h : S.Good a) (hcarried : ∀ v ∈ (S.dump a).atoms, Carried v)
    (path : Str) (number : Nat) :
    parsed (loadsOf L frames) S.model (Value.dumps Value.spaced 0 (S.dump a)) path number =
      .ok a := by
  unfold parsed
  rw [loadsOf_dumps hframes (S.stable a h) (fun n => S.framed a (n + 1) h) hcarried]
  exact validated_dump S h _

/-- The lines of some instances are read as these. -/
theorem mapM_parsed {as : List α} (h : ∀ a ∈ as, S.Good a)
    (hcarried : CarriedAll (as.map S.dump)) (path : Str) {found : List (Str × Nat)}
    (hfound : found.map Prod.fst = (as.map S.dump).map (Value.dumps Value.spaced 0)) :
    (found.mapM fun l => parsed (loadsOf L frames) S.model l.1 path l.2) = .ok as := by
  induction as generalizing found with
  | nil =>
      rw [List.map_nil, List.map_nil, List.map_eq_nil_iff] at hfound
      rw [hfound]
      rfl
  | cons a as ih =>
      -- A value that was written has a line.
      cases found with
      | nil => cases hfound
      | cons l found =>
          simp only [List.map_cons, List.cons.injEq] at hfound
          rw [List.forall_mem_cons] at h
          unfold CarriedAll at hcarried
          rw [List.map_cons, List.forall_mem_cons] at hcarried
          rw [List.mapM_cons, hfound.1, parsed_dump hframes S h.1 hcarried.1,
            ih h.2 hcarried.2 hfound.2]
          rfl

end Read

/-! ### Identifiers used twice -/

/-- No identifier is refused exactly if none comes twice. -/
theorem refuseRepeats_eq_ok_iff {repr : Str → Str} {path : Str} {seen ids : List Str} :
    refuseRepeats repr path seen ids = .ok () ↔ ids.Nodup ∧ ∀ id ∈ ids, id ∉ seen := by
  induction ids generalizing seen with
  | nil => exact iff_of_true rfl ⟨List.nodup_nil, List.forall_mem_nil _⟩
  | cons id ids ih =>
      rw [refuseRepeats, List.nodup_cons, List.forall_mem_cons]
      split
      · rename_i hseen
        -- An id that comes twice is refused at its second place.
        exact iff_of_false nofun fun h => h.2.1 hseen
      · rename_i hseen
        rw [ih]
        constructor
        · rintro ⟨hnodup, hnew⟩
          exact ⟨⟨fun hid => hnew id hid List.mem_cons_self, hnodup⟩, hseen,
            fun other hother hin => hnew other hother (List.mem_cons_of_mem _ hin)⟩
        · rintro ⟨⟨hid, hnodup⟩, _, hnew⟩
          -- The first one is new to those behind it, since none of them is it.
          refine ⟨hnodup, fun other hother hin => ?_⟩
          rcases List.mem_cons.mp hin with rfl | hin
          · exact hid hother
          · exact hnew other hother hin

section Sets

variable (L : Library) (frames : Nat) (repr : Str → Str)

/-- What is written of a set: its header, and its cases. -/
def setValues {capability : Capability} (header : SetHeader) (cases : List (CaseFor capability)) :
    List Value :=
  (headerShape L).dump header :: cases.map (caseShape L capability).dump

/-- Reading a file as a set. -/
def readBackSet (capability : Capability) (path : Str) (e : Entry (Read Str)) :
    Except Raised (GoldenSet capability (CaseFor capability)) :=
  readSet (loadsOf L frames) repr (setModels L) (caseShape L capability).model caseIdOf capability
    path e

/-- The file of a set is read as its header and its cases, in their order. -/
def SetReadsBack (capability : Capability) (path : Str) (header : SetHeader)
    (cases : List (CaseFor capability)) : Prop :=
  ∃ content, writtenLines (setValues L header cases) = some content ∧
    readBackSet L frames repr capability path (.file (.ok content)) =
      .ok ⟨header.version, header.description, cases, path, header.version_pos⟩

variable {L} {frames} {repr} {capability : Capability}

/-- No set holds an identifier twice. -/
theorem nodup_of_readBackSet {path : Str} {e : Entry (Read Str)}
    {g : GoldenSet capability (CaseFor capability)}
    (h : readBackSet L frames repr capability path e = .ok g) : (g.cases.map caseIdOf).Nodup := by
  unfold readBackSet readSet at h
  rcases Failing.bind_eq_ok.mp h with ⟨found, _, h⟩
  -- A file without a line has no header and is refused.
  cases found with
  | nil => cases h
  | cons first rest =>
      rcases Failing.bind_eq_ok.mp h with ⟨header, _, h⟩
      -- A set of another capability is refused before its cases are looked at.
      split at h
      · cases h
      · rcases Failing.bind_eq_ok.mp h with ⟨cases_, _, h⟩
        rcases Failing.bind_eq_ok.mp h with ⟨_, hrepeats, h⟩
        cases h
        exact (refuseRepeats_eq_ok_iff.mp hrepeats).1

variable {path : Str} {header : SetHeader} {cases : List (CaseFor capability)}

theorem isObj_setValues : ∀ v ∈ setValues L header cases, ∃ fs, v = .obj fs :=
  List.forall_mem_cons.mpr ⟨(headerShape L).isObj header,
    List.forall_mem_map.mpr fun a _ => (caseShape L capability).isObj a⟩

theorem stable_setValues (hgood : ∀ a ∈ cases, (caseShape L capability).Good a) :
    ∀ v ∈ setValues L header cases, ∀ a ∈ v.atoms, Value.Stable L.read a :=
  List.forall_mem_cons.mpr ⟨(headerShape L).stable header trivial,
    List.forall_mem_map.mpr fun a ha => (caseShape L capability).stable a (hgood a ha)⟩

/-- A set is read as it was written exactly if all its values are carried. -/
theorem setReadsBack_iff (hframes : 4 ≤ frames) (hcapability : header.capability = capability)
    (hgood : ∀ a ∈ cases, (caseShape L capability).Good a) (hnodup : (cases.map caseIdOf).Nodup) :
    SetReadsBack L frames repr capability path header cases ↔
      CarriedAll (setValues L header cases) := by
  constructor
  · rintro ⟨content, hcontent, hread⟩
    unfold readBackSet readSet at hread
    rcases Failing.bind_eq_ok.mp hread with ⟨found, hfound, hread⟩
    -- There is a line for the header, and one for each case.
    have hlength : found.length ≤ (setValues L header cases).length := by
      cases found with
      | nil => exact Nat.zero_le _
      | cons first rest =>
          rcases Failing.bind_eq_ok.mp hread with ⟨_, _, hread⟩
          split at hread
          · cases hread
          · rcases Failing.bind_eq_ok.mp hread with ⟨cases_, hcases, hread⟩
            rcases Failing.bind_eq_ok.mp hread with ⟨_, _, hread⟩
            have hsame : cases_ = cases := congrArg GoldenSet.cases (Except.ok.inj hread)
            have hrest := (Failing.mapM_eq_ok.mp hcases).length_eq
            rw [setValues, List.length_cons, List.length_cons, List.length_map, hrest, hsame]
    exact carried_of_length isObj_setValues (stable_setValues hgood) hcontent hfound hlength
  · intro hcarried
    rcases exists_writtenLines hcarried with ⟨content, hcontent⟩
    refine ⟨content, hcontent, ?_⟩
    rcases lines_written isObj_setValues (stable_setValues hgood) path hcarried
      hcontent with ⟨found, hfound, htexts⟩
    unfold CarriedAll setValues at hcarried
    rw [List.forall_mem_cons] at hcarried
    -- The first line is the header's, the rest are those of the cases.
    cases found with
    | nil => cases htexts
    | cons first rest =>
        simp only [setValues, List.map_cons, List.cons.injEq] at htexts
        have hheader := parsed_dump hframes (headerShape L) trivial hcarried.1 path first.2
        have hcases := mapM_parsed hframes (caseShape L capability) hgood hcarried.2 path htexts.2
        have hrepeats : refuseRepeats repr path [] (cases.map caseIdOf) = .ok () :=
          refuseRepeats_eq_ok_iff.mpr ⟨hnodup, fun _ _ => List.not_mem_nil⟩
        unfold readBackSet readSet
        rw [hfound]
        simp only [bind, Except.bind, setModels, htexts.1, hheader, hcapability, ne_eq,
          not_true_eq_false, if_false, pure, Except.pure]
        simp only [hcases, hrepeats]

end Sets

section Answers

variable (L : Library) (frames : Nat) (repr : Str → Str)

/-- What is written of recorded answers. -/
def answerValues {capability : Capability} (entries : List (Str × AnswerFor capability)) :
    List Value :=
  entries.map fun e => lineValue e.1 ((answerShape L capability).dump e.2)

/-- Reading a file as the answers for the cases a set holds. -/
def readBackAnswers (capability : Capability) (held : List Str) (path : Str)
    (e : Entry (Read Str)) : Except Raised (Option (List (Str × AnswerFor capability))) :=
  readOne (loadsOf L frames) repr (recordedModel L) (answerShape L capability).model capability held
    path e

/-- The file of recorded answers is read as these answers, by their cases. -/
def AnswersReadBack (capability : Capability) (path : Str) (held : List Str)
    (entries : List (Str × AnswerFor capability)) : Prop :=
  ∃ content, writtenLines (answerValues L entries) = some content ∧
    readBackAnswers L frames repr capability held path (.file (.ok content)) = .ok (some entries)

variable {L} {frames} {repr} {capability : Capability}

/-- A file that is read goes through its lines, and finds no case answered twice. -/
theorem readBackAnswers_eq_ok {held : List Str} {path : Str} {e : Entry (Read Str)}
    {entries : List (Str × AnswerFor capability)}
    (h : readBackAnswers L frames repr capability held path e = .ok (some entries)) :
    (entries.map Prod.fst).Nodup ∧ ∃ found, lines path e = .ok found ∧
      readLines (loadsOf L frames) repr (recordedModel L) (answerShape L capability).model
        capability held path found = .ok entries := by
  unfold readBackAnswers readOne at h
  -- A file that is missing is no answers, and that is not these.
  split at h
  · split at h
    · cases h
    · cases h
  · split at h
    · cases h
    · rcases Failing.bind_eq_ok.mp h with ⟨found, hfound, h⟩
      rcases Failing.bind_eq_ok.mp h with ⟨answers, hanswers, h⟩
      rcases Failing.bind_eq_ok.mp h with ⟨_, hrepeats, h⟩
      cases h
      exact ⟨(refuseRepeats_eq_ok_iff.mp hrepeats).1, found, hfound, hanswers⟩

theorem length_of_readLines {held : List Str} {path : Str} {found : List (Str × Nat)}
    {entries : List (Str × AnswerFor capability)}
    (h : readLines (loadsOf L frames) repr (recordedModel L) (answerShape L capability).model
      capability held path found = .ok entries) : found.length = entries.length := by
  induction found generalizing entries with
  | nil =>
      cases h
      rfl
  -- A line is an answer or raises, so as many come out as went in.
  | cons l found ih =>
      unfold readLines at h
      rcases Failing.bind_eq_ok.mp h with ⟨answer, _, h⟩
      split at h
      · cases h
      · rcases Failing.bind_eq_ok.mp h with ⟨a, _, h⟩
        rcases Failing.bind_eq_ok.mp h with ⟨rest, hrest, h⟩
        cases h
        rw [List.length_cons, List.length_cons, ih hrest]

theorem parsed_recorded (hframes : 4 ≤ frames) {caseId : Str} {a : AnswerFor capability}
    (hgood : (answerShape L capability).Good a)
    (hcarried : ∀ v ∈ (lineValue caseId ((answerShape L capability).dump a)).atoms, Carried v)
    (path : Str) (number : Nat) :
    parsed (loadsOf L frames) (recordedModel L) (Value.dumps Value.spaced 0
      (lineValue caseId ((answerShape L capability).dump a))) path number =
      .ok ⟨caseId, (answerShape L capability).dump a⟩ := by
  have hstable := stable_recorded caseId ((answerShape L capability).stable a hgood)
  have hframed := fun n => framed_recorded caseId ((answerShape L capability).framed a n hgood)
  unfold parsed
  rw [loadsOf_dumps hframes hstable hframed hcarried]
  rcases (answerShape L capability).isObj a with ⟨fs, hfs⟩
  unfold validated recordedModel
  simp only [hfs, recordedAnswer_lineValue]

/-- The lines of recorded answers are read as these. -/
theorem readLines_written (repr : Str → Str) (hframes : 4 ≤ frames) {held : List Str}
    {entries : List (Str × AnswerFor capability)}
    (hgood : ∀ e ∈ entries, (answerShape L capability).Good e.2)
    (hheld : ∀ e ∈ entries, e.1 ∈ held) (hcarried : CarriedAll (answerValues L entries))
    (path : Str) {found : List (Str × Nat)}
    (hfound : found.map Prod.fst = (answerValues L entries).map (Value.dumps Value.spaced 0)) :
    readLines (loadsOf L frames) repr (recordedModel L) (answerShape L capability).model capability
      held path found = .ok entries := by
  induction entries generalizing found with
  | nil =>
      rw [answerValues, List.map_nil, List.map_nil, List.map_eq_nil_iff] at hfound
      rw [hfound]
      rfl
  -- A line's case is one of those in the set, and what it holds is its answer.
  | cons e entries ih =>
      cases found with
      | nil => cases hfound
      | cons l found =>
          simp only [answerValues, List.map_cons, List.cons.injEq] at hfound
          rw [List.forall_mem_cons] at hgood hheld
          unfold CarriedAll answerValues at hcarried
          rw [List.map_cons, List.forall_mem_cons] at hcarried
          have hparsed := parsed_recorded hframes hgood.1 hcarried.1 path l.2
          have hvalidated := validated_dump (answerShape L capability) hgood.1 (place path l.2)
          have hrest := ih hgood.2 hheld.2 hcarried.2 hfound.2
          rcases l with ⟨line, number⟩
          simp only at hfound hparsed hvalidated
          simp only [readLines, hfound.1, hparsed, bind, Except.bind, hheld.1, not_true_eq_false,
            if_false, hvalidated, hrest, pure, Except.pure]

variable {path : Str} {held : List Str} {entries : List (Str × AnswerFor capability)}

theorem isObj_answerValues : ∀ v ∈ answerValues L entries, ∃ fs, v = .obj fs :=
  List.forall_mem_map.mpr fun _ _ => ⟨_, rfl⟩

theorem stable_answerValues (hgood : ∀ e ∈ entries, (answerShape L capability).Good e.2) :
    ∀ v ∈ answerValues L entries, ∀ a ∈ v.atoms, Value.Stable L.read a :=
  List.forall_mem_map.mpr fun e he =>
    stable_recorded e.1 ((answerShape L capability).stable e.2 (hgood e he))

/-- Answers are read as they were written exactly if all their values are carried. -/
theorem answersReadBack_iff (hframes : 4 ≤ frames) (hne : held ≠ [])
    (hgood : ∀ e ∈ entries, (answerShape L capability).Good e.2)
    (hheld : ∀ e ∈ entries, e.1 ∈ held) (hnodup : (entries.map Prod.fst).Nodup) :
    AnswersReadBack L frames repr capability path held entries ↔
      CarriedAll (answerValues L entries) := by
  constructor
  · rintro ⟨content, hcontent, hread⟩
    rcases (readBackAnswers_eq_ok hread).2 with ⟨found, hfound, hlines⟩
    -- What was read back is as many answers as there are lines.
    refine carried_of_length isObj_answerValues (stable_answerValues hgood) hcontent hfound ?_
    rw [length_of_readLines hlines, answerValues, List.length_map]
  · intro hcarried
    rcases exists_writtenLines hcarried with ⟨content, hcontent⟩
    rcases lines_written isObj_answerValues (stable_answerValues hgood) path hcarried
      hcontent with ⟨found, hfound, htexts⟩
    have hlines := readLines_written repr hframes hgood hheld hcarried path htexts
    have hrepeats : refuseRepeats repr path [] (entries.map Prod.fst) = .ok () :=
      refuseRepeats_eq_ok_iff.mpr ⟨hnodup, fun _ _ => List.not_mem_nil⟩
    have hfile : (Entry.file (.ok content) : Entry (Read Str)).IsFile := trivial
    refine ⟨content, hcontent, ?_⟩
    unfold readBackAnswers readOne
    simp only [hne, if_false, hfile, not_true_eq_false, hfound, hlines, hrepeats, bind, Except.bind,
      pure, Except.pure]

end Answers

/-- No set that is read holds an identifier twice. -/
def SetsRefuse (L : Library) (frames : Nat) (repr : Str → Str) (capability : Capability) : Prop :=
  ∀ path e g, readBackSet L frames repr capability path e = .ok g →
    (g.cases.map caseIdOf).Nodup

/-- No file of answers that is read answers a case twice. -/
def AnswersRefuse (L : Library) (frames : Nat) (repr : Str → Str) (capability : Capability) :
    Prop :=
  ∀ held path e entries, readBackAnswers L frames repr capability held path e =
    .ok (some entries) → (entries.map Prod.fst).Nodup

/-- A set is read as it was written, and so are recorded answers, and an identifier that is
    used twice is refused, exactly if every value that is written is carried. -/
theorem readBack_iff (L : Library) {frames : Nat} (repr : Str → Str) (capability : Capability)
    (path : Str) (header : SetHeader) (cases : List (CaseFor capability)) (held : List Str)
    (entries : List (Str × AnswerFor capability)) (hframes : 4 ≤ frames)
    (hcapability : header.capability = capability)
    (hcases : ∀ a ∈ cases, (caseShape L capability).Good a)
    (hids : (cases.map caseIdOf).Nodup)
    (hentries : ∀ e ∈ entries, (answerShape L capability).Good e.2)
    (hkeys : (entries.map Prod.fst).Nodup) (hne : held ≠ [])
    (hheld : ∀ e ∈ entries, e.1 ∈ held) :
    ((SetReadsBack L frames repr capability path header cases ∧
        SetsRefuse L frames repr capability) ↔
      CarriedAll (setValues L header cases)) ∧
    ((AnswersReadBack L frames repr capability path held entries ∧
        AnswersRefuse L frames repr capability) ↔
      CarriedAll (answerValues L entries)) := by
  constructor
  · rw [setReadsBack_iff hframes hcapability hcases hids]
    exact and_iff_left fun _ _ _ => nodup_of_readBackSet
  · rw [answersReadBack_iff hframes hne hentries hheld hkeys]
    exact and_iff_left fun _ _ _ _ h => (readBackAnswers_eq_ok h).1

section Example

/-- What is written of a score, for the scores there are in the example. -/
def halves : List (Score × Str) :=
  [(none, text "nan"), (some 0, text "0.0"), (some (1 / 2), text "0.5"), (some 1, text "1.0")]

theorem isNumber_of_mem_halves : ∀ e ∈ halves, Value.IsNumber e.2 := by
  have hfraction : ∀ a b : CodePoint, Value.IsWhole [a] → Numeral.IsDigit b →
      Value.IsNumber [a, 0x2E, b] := fun a b ha hb =>
    Or.inr ⟨[], [a], [0x2E, b], [], rfl, Or.inl rfl, ha,
      Or.inr ⟨[b], ⟨List.cons_ne_nil _ _, List.forall_mem_singleton.mpr hb⟩, rfl⟩, Or.inl rfl,
      Or.inl (List.cons_ne_nil _ _)⟩
  have hone : Value.IsWhole [0x31] :=
    Or.inr ⟨⟨List.cons_ne_nil _ _, List.forall_mem_singleton.mpr (by decide)⟩, by decide⟩
  simp only [halves, List.forall_mem_cons]
  exact ⟨Or.inl (by decide), hfraction 0x30 0x30 (Or.inl rfl) (by decide),
    hfraction 0x30 0x35 (Or.inl rfl) (by decide), hfraction 0x31 0x30 hone (by decide),
    List.forall_mem_nil _⟩

theorem find?_halves : ∀ q ∈ halves.map Prod.fst, (halves.find? fun e =>
    e.2 = (halves.lookup q).getD []).map Prod.fst = some q := by
  decide +kernel

theorem stable_halves : ∀ q ∈ halves.map Prod.fst,
    Value.Stable id (.float ((halves.lookup q).getD [])) := by
  intro q hq
  rcases Option.isSome_iff_exists.mp (Dict.lookup_isSome_iff.mpr hq) with ⟨written, hwritten⟩
  have hmem : (q, written) ∈ halves :=
    (Dict.lookup_eq_some_iff (by decide +kernel)).mp hwritten
  rw [hwritten]
  exact ⟨isNumber_of_mem_halves _ hmem, fun _ => rfl⟩

/-- A library that takes nothing for what it is not. -/
def strictLibrary : Library where
  str v := match v with
    | .str s => some s
    | _ => none
  int v := match v with
    | .int n => some n
    | _ => none
  bool v := match v with
    | .bool b => some b
    | _ => none
  number v := match v with
    | .float written => (halves.find? fun e => e.2 = written).map Prod.fst
    | _ => none
  date v := match v with
    | .str s => Calendar.Date.fromisoformat s
    | _ => none
  scalar v := match v with
    | .str s => some (.str s)
    | .int n => some (.int n)
    | .float written => some (.float written)
    | .bool b => some (.bool b)
    | .null => some .none
    | _ => none
  report name _ := name
  read := id
  Held q := q ∈ halves.map Prod.fst
  written q := (halves.lookup q).getD []
  str_eq _ := rfl
  int_eq _ := rfl
  bool_eq _ := rfl
  date_eq d := Calendar.Date.fromisoformat_isoformat d
  scalar_eq s := by cases s <;> rfl
  number_eq := find?_halves
  written_stable := stable_halves

/-- One version of the set of extractions. -/
def firstHeader : SetHeader where
  capability := .extraction
  version := 1
  description := text "a set"
  version_pos := Nat.one_pos

/-- One document with one field. -/
def caseOf (document : Str) : ExtractionCase where
  caseId := text "c"
  document := document
  fields := {
    entries := [(text "a", .int 1)]
    nodup := List.nodup_singleton _
    named := List.forall_mem_singleton.mpr (by decide +kernel) }
  fields_ne_nil := List.cons_ne_nil _ _

/-- One field answered. -/
def answerOf : ExtractionAnswer where
  fields := (caseOf []).fields

/-- A set of one case, and the answer to it, are read as they were written. -/
theorem readBack_one :
    SetReadsBack strictLibrary 4 id .extraction (text "f") firstHeader [caseOf (text "d")] ∧
      AnswersReadBack strictLibrary 4 id .extraction (text "f") [text "c"]
        [(text "c", answerOf)] := by
  have h := readBack_iff strictLibrary id .extraction (text "f") firstHeader [caseOf (text "d")]
    [text "c"] [(text "c", answerOf)] (le_refl 4) rfl
    (List.forall_mem_singleton.mpr (List.forall_mem_singleton.mpr trivial))
    (List.nodup_singleton _)
    (List.forall_mem_singleton.mpr (List.forall_mem_singleton.mpr trivial))
    (List.nodup_singleton _) (List.cons_ne_nil _ _)
    (List.forall_mem_singleton.mpr (List.mem_singleton_self _))
  exact ⟨(h.1.mpr (by decide +kernel)).1, (h.2.mpr (by decide +kernel)).1⟩

/-- A set of one case whose document has a line separator in its name is not read as it was
    written. -/
theorem not_readBack_separator :
    ¬ (SetReadsBack strictLibrary 4 id .extraction (text "f") firstHeader [caseOf [0x2028]] ∧
      SetsRefuse strictLibrary 4 id .extraction) := by
  rintro ⟨h, _⟩
  have hgood : ∀ a ∈ [caseOf [0x2028]], (caseShape strictLibrary .extraction).Good a :=
    List.forall_mem_singleton.mpr (List.forall_mem_singleton.mpr trivial)
  have hcapability : firstHeader.capability = .extraction := rfl
  have hcarried := (setReadsBack_iff (le_refl 4) hcapability hgood (List.nodup_singleton _)).mp h
  exact absurd hcarried (by decide +kernel)

end Example

end Evaluation

end ClaimTriage
