import ClaimTriage.Contract.Models

/-!
# Guard Verdicts

What every guard answers with. A refusal is a value here and not an error: a
guard that refuses has answered, and the caller decides what that means at its
own boundary.

The texts of a verdict are the caller's, a filename for one, so they are any
texts at all; `DocumentVerdicts.reads` is what a form makes of a document's
verdicts, text by text.

## Main definitions

* `Check`: The checks there are.
* `Verdict`: One check's answer.
* `DocumentVerdicts`: Every check's answer about one document.
* `DocumentVerdicts.wire`: How they are dumped.

## Theorems

* `DocumentVerdicts.reads`: Verdicts are read back as what a form makes of
  their texts.
-/

namespace ClaimTriage

open Theory Text

/-- The checks, the rate limit in front of the boundary and the document checks
    behind it. -/
inductive Check where
  | rateLimit
  | size
  | mediaType
  | structural
  | encryption
  | archive
  | pageCount
  deriving DecidableEq

/-- The name a check goes by. -/
def Check.value : Check → Str
  | rateLimit => text "rate_limit"
  | size => text "size"
  | mediaType => text "media_type"
  | structural => text "structure"
  | encryption => text "encryption"
  | archive => text "archive"
  | pageCount => text "page_count"

/-- A check as its name. -/
def Check.codec : Codec Check Str :=
  Codec.named [rateLimit, size, mediaType, structural, encryption, archive, pageCount] Check.value
    (by intro c; cases c <;> decide) (by intro a b; cases a <;> cases b <;> decide)

/-- One check's answer: what it checked, whether it let it through, and what it
    found. -/
@[ext]
structure Verdict where
  check : Check
  passed : Bool
  detail : Str
  deriving DecidableEq

/-- Every check's answer about one uploaded document, and which document it
    was, as the caller declared it. -/
@[ext]
structure DocumentVerdicts where
  filename : Str
  mediaType : Str
  verdicts : List Verdict
  deriving DecidableEq

/-- The fields of a verdict. -/
def Verdict.fields : List Str :=
  [text "check", text "passed", text "detail"]

/-- A verdict as it is dumped. -/
def Verdict.wire : Codec Verdict Json :=
  (Codec.record fields
    (Check.codec.str.cons (Codec.bool.cons (Codec.plain.str.cons Codec.nil)))
    (by decide) (fun _ => rfl)).comp
    { encode := fun v => (v.check, v.passed, v.detail, ())
      decode := fun (check, passed, detail, ()) => some ⟨check, passed, detail⟩
      decode_encode := fun _ => rfl }

/-- The fields of a document's verdicts. -/
def DocumentVerdicts.fields : List Str :=
  [text "filename", text "media_type", text "verdicts"]

/-- A document's verdicts as they are dumped. -/
def DocumentVerdicts.wire : Codec DocumentVerdicts Json :=
  (Codec.record fields
    (Codec.plain.str.cons (Codec.plain.str.cons (Verdict.wire.array.cons Codec.nil)))
    (by decide) (fun _ => rfl)).comp
    { encode := fun d => (d.filename, d.mediaType, d.verdicts, ())
      decode := fun (filename, mediaType, verdicts, ()) => some ⟨filename, mediaType, verdicts⟩
      decode_encode := fun _ => rfl }

/-- The texts of a document's verdicts. -/
def DocumentVerdicts.texts (d : DocumentVerdicts) : List Str :=
  d.filename :: d.mediaType :: d.verdicts.map Verdict.detail

/-- A verdict with its text put through a function. -/
def Verdict.mapText (f : Str → Str) (v : Verdict) : Verdict :=
  { v with detail := f v.detail }

/-- A document's verdicts with their texts put through a function. -/
def DocumentVerdicts.mapText (f : Str → Str) (d : DocumentVerdicts) : DocumentVerdicts where
  filename := f d.filename
  mediaType := f d.mediaType
  verdicts := d.verdicts.map (Verdict.mapText f)

theorem Verdict.noPair_wire {v : Verdict} (h : NoPair v.detail) : (wire.encode v).NoPair := by
  have hcheck : NoPair v.check.value := by cases v.check <;> decide
  refine Codec.noPair_record (by decide) (fun _ => rfl) (by decide) ?_
  simp only [Codec.cons, Codec.nil, Codec.str, Codec.bool, Codec.plain, Check.codec, Codec.named,
    List.forall_mem_cons, List.not_mem_nil, Json.NoPair]
  exact ⟨hcheck, trivial, h, fun _ h => absurd h not_false⟩

theorem DocumentVerdicts.noPair_wire {d : DocumentVerdicts} (h : ∀ t ∈ d.texts, NoPair t) :
    (wire.encode d).NoPair := by
  have hverdicts : (Verdict.wire.array.encode d.verdicts).NoPair :=
    Codec.noPair_array fun v hv => Verdict.noPair_wire
      (h _ (List.mem_cons_of_mem _ (List.mem_cons_of_mem _ (List.mem_map_of_mem hv))))
  refine Codec.noPair_record (by decide) (fun _ => rfl) (by decide) ?_
  simp only [Codec.cons, Codec.nil, Codec.str, Codec.plain, List.forall_mem_cons,
    List.not_mem_nil, Json.NoPair]
  exact ⟨h _ List.mem_cons_self, h _ (List.mem_cons_of_mem _ List.mem_cons_self), hverdicts,
    fun _ h => absurd h not_false⟩

/-- Settling the texts of verdicts does not show in what they are dumped to. -/
theorem Verdict.alike_settled (sp : Bool) (v : Verdict) :
    Json.Alike sp (wire.encode (v.mapText settled)) (wire.encode v) := by
  refine Json.alike_obj ?_
  exact List.Forall₂.cons (Json.alike_refl _ _) (List.Forall₂.cons (Json.alike_refl _ _)
    (List.Forall₂.cons (Json.alike_str sp v.detail) List.Forall₂.nil))

theorem DocumentVerdicts.alike_settled (sp : Bool) (d : DocumentVerdicts) :
    Json.Alike sp (wire.encode (d.mapText settled)) (wire.encode d) := by
  have hverdicts : Json.Alike sp
      (Verdict.wire.array.encode (d.verdicts.map (Verdict.mapText settled)))
      (Verdict.wire.array.encode d.verdicts) := by
    refine Json.alike_arr ?_
    simp only [Codec.list, List.map_map, List.forall₂_map_left_iff, List.forall₂_map_right_iff,
      List.forall₂_same]
    exact fun v _ => v.alike_settled sp
  refine Json.alike_obj ?_
  exact List.Forall₂.cons (Json.alike_str sp d.filename) (List.Forall₂.cons
    (Json.alike_str sp d.mediaType) (List.Forall₂.cons hverdicts List.Forall₂.nil))

/-- Settled verdicts hold no surrogate pair. -/
theorem DocumentVerdicts.noPair_mapText (d : DocumentVerdicts) :
    ∀ t ∈ (d.mapText settled).texts, NoPair t := by
  intro t ht
  have hsettled : ∃ u, t = settled u := by
    rcases List.mem_cons.mp ht with rfl | ht
    · exact ⟨_, rfl⟩
    · rcases List.mem_cons.mp ht with rfl | ht
      · exact ⟨_, rfl⟩
      · rcases List.mem_map.mp ht with ⟨v, hv, rfl⟩
        rcases List.mem_map.mp hv with ⟨w, _, rfl⟩
        exact ⟨_, rfl⟩
  rcases hsettled with ⟨u, rfl⟩
  exact noPair_settled u

/-- A form that has the dumped verdicts has every text of them. -/
theorem DocumentVerdicts.text_isSome {F : Form} {ds : List DocumentVerdicts}
    (h : (F.apply (wire.array.encode ds)).isSome) :
    ∀ d ∈ ds, ∀ t ∈ d.texts, (F.text t).isSome := by
  intro d hd t ht
  have hfields := isSome_of_record (by decide) (fun _ => rfl) (isSome_of_array h d hd)
  simp only [Codec.cons, Codec.nil, Codec.str, Codec.plain, id,
    List.forall_mem_cons] at hfields
  rcases hfields with ⟨hfilename, hmediaType, hverdicts, _⟩
  rcases List.mem_cons.mp ht with rfl | ht
  · exact text_isSome_of_str hfilename
  · rcases List.mem_cons.mp ht with rfl | ht
    · exact text_isSome_of_str hmediaType
    · rcases List.mem_map.mp ht with ⟨v, hv, rfl⟩
      have hverdict := isSome_of_record (by decide) (fun _ => rfl) (isSome_of_array hverdicts v hv)
      simp only [Codec.cons, Codec.nil, Codec.str, Codec.plain, id,
        List.forall_mem_cons] at hverdict
      exact text_isSome_of_str hverdict.2.2.1

section Reads

variable {F : Form} {f : Str → Str}

theorem Check.reads (c : Check) : Reads F Check.codec.str c c :=
  reads_of_printable _ (by cases c <;> decide)

theorem Verdict.reads {v : Verdict} (h : F.text v.detail = some (f v.detail)) :
    Reads F Verdict.wire v (v.mapText f) :=
  reads_comp (reads_record _ _ (by decide)
    (readsAll_cons v.check.reads (readsAll_cons (reads_bool v.passed)
      (readsAll_cons (reads_plain h) readsAll_nil)))) rfl

/-- Verdicts are read back as what the form makes of their texts. -/
theorem DocumentVerdicts.reads {d : DocumentVerdicts}
    (h : ∀ t ∈ d.texts, F.text t = some (f t)) : Reads F DocumentVerdicts.wire d (d.mapText f) := by
  have hverdicts : List.Forall₂ (Reads F Verdict.wire) d.verdicts
      (d.verdicts.map (Verdict.mapText f)) := by
    rw [List.forall₂_map_right_iff, List.forall₂_same]
    intro v hv
    exact Verdict.reads (h _ (List.mem_cons_of_mem _ (List.mem_cons_of_mem _
      (List.mem_map_of_mem hv))))
  exact reads_comp (reads_record _ _ (by decide)
    (readsAll_cons (reads_plain (h _ List.mem_cons_self))
      (readsAll_cons (reads_plain (h _ (List.mem_cons_of_mem _ List.mem_cons_self)))
        (readsAll_cons (reads_array hverdicts) readsAll_nil)))) rfl

/-- Verdicts of several documents, document by document. -/
theorem reads_documents {ds : List DocumentVerdicts}
    (h : ∀ d ∈ ds, ∀ t ∈ d.texts, F.text t = some (f t)) :
    Reads F DocumentVerdicts.wire.array ds (ds.map (DocumentVerdicts.mapText f)) := by
  refine reads_array ?_
  rw [List.forall₂_map_right_iff, List.forall₂_same]
  exact fun d hd => DocumentVerdicts.reads (h d hd)

end Reads

end ClaimTriage
