import ClaimTriage.Guards.Verdict
import ClaimTriage.Theory.Except
import ClaimTriage.Theory.Rounding
import Mathlib.Data.List.Sort

/-!
# The Ingress

What is allowed in, checked before anything else looks at a document. Which
checks a document is asked, and in which order, is data: a declared type has its
steps, each is asked once the ones before it have passed, and a type that has
none is refused.

The readers of the two types are not part of the boundary, and what they are
given is the caller's. So whatever a reader raises on its way to a document is
an answer. One thing it is asked stands outside of that: whether a document it
has read is encrypted.

## Main definitions

* `Upload`: A document as it arrived.
* `IngressLimits`: What the boundary takes, and how much of it.
* `Readers`: What reads documents.
* `steps`: The checks of a declared type.
* `screened`, `screen`: The verdicts on a document, and on all of them.
* `firstRefusal`: The first document refused, and by which check.
* `declaredSize`: The verdict on what a submission says it carries.
* `Admissible`: A document that is let in.
* `Screens`: Screening answers, and only gives readers what they are to read.

## Theorems

* `flagRaises_iff`: When a document has no verdicts.
* `screen_eq_error_iff`: When a submission has none.
* `forall₂_screen`: One list of verdicts a document, in their order.
* `firstRefusal_eq_none_iff`, `firstRefusal_eq_some`: What is refused first.
* `stopping_of_run`, `run_passed_iff`: What a run of steps answers.
* `stopping_of_screened`: What a document's verdicts are, and when none refuses.
* `screened_congr`: What readers say only matters of documents given to them.
* `screens_iff`: When screening answers.
-/

namespace ClaimTriage

namespace Ingress

open Theory Text Numeral

/-- A document as it arrived: what the caller called it, and the bytes read so
    far. -/
structure Upload where
  filename : Str
  mediaType : Str
  content : List UInt8
  deriving DecidableEq

/-- What this boundary takes, and how much of it. -/
structure IngressLimits where
  mediaTypes : List Str
  maxSubmissionBytes : Int
  maxBytes : Int
  maxPages : Int
  maxExpansionRatio : ℚ
  nodup : mediaTypes.Nodup

/-- A PDF as its reader shows it: whether it is encrypted and how many pages it
    has, each of them asked for and each of them answered or raised at. -/
structure Pdf where
  encrypted : Except Str Bool
  pages : Except Str Nat

/-- An entry of an archive's directory. -/
structure ZipEntry where
  filename : Str
  flagBits : Nat
  fileSize : Nat

/-- What reads documents, or what it raises at them. -/
structure Readers where
  pdf : List UInt8 → Except Str Pdf
  zip : List UInt8 → Except Str (List ZipEntry)

/-- The type a claim's documents arrive as. -/
def pdfType : Str :=
  text "application/pdf"

/-- A bundle of documents. -/
def zipType : Str :=
  text "application/zip"

/-- The bit an entry of an archive sets to say it is encrypted. -/
def encryptedFlag : Nat :=
  0x1

/-- Read no more than a byte past the ceiling. -/
def readBounded (stream : List UInt8) (maxBytes : Int) : List UInt8 :=
  -- A negative count reads all there is.
  if maxBytes + 1 < 0 then stream else stream.take (maxBytes + 1).toNat

/-- A check that lets through. -/
def passed (check : Check) (detail : Str) : Verdict where
  check := check
  passed := true
  detail := detail

/-- A check that refuses. -/
def refused (check : Check) (detail : Str) : Verdict where
  check := check
  passed := false
  detail := detail

/-- Names one after the other, a comma between them. -/
def listed : List Str → Str
  | [] => []
  | [name] => name
  | name :: rest => name ++ text ", " ++ listed rest

/-- The types that are taken, as a refusal names them. -/
def taken (limits : IngressLimits) : Str :=
  let names := listed (limits.mediaTypes.insertionSort (· ≤ ·))
  if names = [] then text "nothing" else names

/-- A declared type, as a refusal names it. -/
def named (mediaType : Str) : Str :=
  if mediaType = [] then text "no content type" else mediaType

/-- One check, or several that read the document once: what it finds, in the
    order it found it, or what was raised at it. -/
abbrev Step :=
  Readers → Upload → IngressLimits → Except Str (List Verdict)

/-- How large a document is. -/
def size : Step := fun _ upload limits =>
  let size := upload.content.length
  if limits.maxBytes < size then
    .ok [refused .size (decimal size ++ text " bytes exceeds the " ++ signed limits.maxBytes ++
      text "-byte ceiling")]
  else
    .ok [passed .size (decimal size ++ text " bytes is within the " ++ signed limits.maxBytes ++
      text "-byte ceiling")]

/-- What a document says it is. -/
def mediaType : Step := fun _ upload limits =>
  if upload.mediaType ∈ limits.mediaTypes then
    .ok [passed .mediaType (upload.mediaType ++ text " is a document type taken here")]
  else
    .ok [refused .mediaType (named upload.mediaType ++
      text " is not one of the document types taken here (" ++ taken limits ++ text ")")]

/-- Structure, encryption and page count, from one read of the document. -/
def pdf : Step := fun readers upload limits =>
  match readers.pdf upload.content with
  | .error unreadable =>
      .ok [refused .structural (text "it is not a readable PDF: " ++ unreadable)]
  | .ok reader =>
      let structural := passed .structural (text "it is a readable PDF")
      -- What asking for the flag raises is not caught.
      match reader.encrypted with
      | .error raised => .error raised
      | .ok true => .ok [structural, refused .encryption (text "it is encrypted")]
      | .ok false =>
          match reader.pages with
          | .error unreadable =>
              .ok [structural,
                refused .structural (text "its pages are unreadable: " ++ unreadable)]
          | .ok pages =>
              if pages < 1 then
                .ok [structural, passed .encryption (text "it is not encrypted"),
                  refused .structural (text "it holds no pages")]
              else if limits.maxPages < pages then
                .ok [structural, passed .encryption (text "it is not encrypted"),
                  refused .pageCount (decimal pages ++ text " pages exceeds the " ++
                    signed limits.maxPages ++ text "-page ceiling")]
              else
                .ok [structural, passed .encryption (text "it is not encrypted"),
                  passed .pageCount (decimal pages ++ text " pages is within the " ++
                    signed limits.maxPages ++ text "-page ceiling")]

/-- Structure, encryption and expansion, from one read of the archive's own
    directory. The ratio is the quotient itself, where the source's is the float next
    to it. -/
def archive : Step := fun readers upload limits =>
  match readers.zip upload.content with
  | .error unreadable =>
      .ok [refused .structural (text "it is not a readable archive: " ++ unreadable)]
  | .ok entries =>
      let structural := passed .structural (text "it is a readable archive")
      match entries.filter fun entry => entry.flagBits &&& encryptedFlag ≠ 0 with
      | entry :: _ =>
          .ok [structural, refused .encryption
            (text "it holds encrypted entries, starting with " ++ entry.filename)]
      | [] =>
          let expanded := (entries.map ZipEntry.fileSize).sum
          let held := upload.content.length
          let ratio : ℚ := expanded / max held 1
          let declares := text "it declares " ++ decimal expanded ++ text " bytes of " ++
            decimal held
          let ceiling := Rounding.fixed 0 limits.maxExpansionRatio ++ text "x ceiling"
          if limits.maxExpansionRatio < ratio then
            .ok [structural, passed .encryption (text "no entry is encrypted"),
              refused .archive (declares ++ text ", " ++ Rounding.fixed 0 ratio ++
                text "x its own size, past the " ++ ceiling)]
          else
            .ok [structural, passed .encryption (text "no entry is encrypted"),
              passed .archive (declares ++ text ", within the " ++ ceiling)]

/-- Which checks each document type is asked, in order. -/
def steps (type : Str) : List Step :=
  if type = pdfType then [size, mediaType, pdf]
  else if type = zipType then [size, mediaType, archive]
  else []

/-- Steps in their order, up to the first that refuses. -/
def run (readers : Readers) (upload : Upload) (limits : IngressLimits) :
    List Step → Except Str (List Verdict)
  | [] => .ok []
  | step :: rest => do
      let found ← step readers upload limits
      if ∀ verdict ∈ found, verdict.passed then
        return found ++ (← run readers upload limits rest)
      else
        return found

/-- One document's verdicts: the checks for its declared type, stopping where one
    refuses. -/
def screened (readers : Readers) (limits : IngressLimits) (upload : Upload) :
    Except Str DocumentVerdicts := do
  let verdicts ← run readers upload limits (steps upload.mediaType)
  return {
    filename := upload.filename
    mediaType := upload.mediaType
    verdicts :=
      -- A type this boundary has no checks for.
      if verdicts = [] then
        [refused .mediaType (named upload.mediaType ++
          text " is not a document type this boundary takes (" ++ taken limits ++ text ")")]
      else verdicts }

/-- Answer every check that applies to every upload, up to the first refusal of
    each. -/
def screen (readers : Readers) (uploads : List Upload) (limits : IngressLimits) :
    Except Str (List DocumentVerdicts) :=
  uploads.mapM (screened readers limits)

/-- The verdict on how much one whole submission says it carries. -/
def declaredSize (declaredBytes : Option Nat) (limits : IngressLimits) : Verdict :=
  match declaredBytes with
  | none => passed .size
      (text "the submission declares no length, so its size is bounded as it is read")
  | some declared =>
      if limits.maxSubmissionBytes < declared then
        refused .size (text "the submission declares " ++ decimal declared ++
          text " bytes, past the " ++ signed limits.maxSubmissionBytes ++ text "-byte ceiling")
      else
        passed .size (text "the submission declares " ++ decimal declared ++
          text " bytes, within the " ++ signed limits.maxSubmissionBytes ++ text "-byte ceiling")

/-- The first document refused and the check that refused it, if any was. -/
def firstRefusal : List DocumentVerdicts → Option (Str × Verdict)
  | [] => none
  | document :: rest =>
      match document.verdicts.find? fun verdict => ¬ verdict.passed with
      | some verdict => some (document.filename, verdict)
      | none => firstRefusal rest

/-- No verdict of a document's is a refusal. -/
def Clean (document : DocumentVerdicts) : Prop :=
  ∀ verdict ∈ document.verdicts, verdict.passed = true

instance (document : DocumentVerdicts) : Decidable (Clean document) :=
  List.decidableBAll _ _

/-- Asking a reader whether this document is encrypted raises: it is declared a PDF
    and taken as one, is under the ceiling, and is read. -/
def FlagRaises (readers : Readers) (limits : IngressLimits) (upload : Upload) : Prop :=
  upload.mediaType = pdfType ∧ (upload.content.length : Int) ≤ limits.maxBytes ∧
    pdfType ∈ limits.mediaTypes ∧
    ∃ reader raised, readers.pdf upload.content = .ok reader ∧ reader.encrypted = .error raised

section

variable {readers : Readers} {limits : IngressLimits} {upload : Upload}

variable (readers) (limits) (upload) in
theorem size_eq : ∃ verdict, size readers upload limits = .ok [verdict] ∧
    (verdict.passed = true ↔ (upload.content.length : Int) ≤ limits.maxBytes) := by
  unfold size
  by_cases h : limits.maxBytes < upload.content.length
  · exact ⟨_, if_pos h, nofun, fun hle => absurd h (not_lt.mpr hle)⟩
  · exact ⟨_, if_neg h, fun _ => not_lt.mp h, fun _ => rfl⟩

variable (readers) (limits) (upload) in
theorem mediaType_eq : ∃ verdict, mediaType readers upload limits = .ok [verdict] ∧
    (verdict.passed = true ↔ upload.mediaType ∈ limits.mediaTypes) := by
  unfold mediaType
  by_cases h : upload.mediaType ∈ limits.mediaTypes
  · exact ⟨_, if_pos h, fun _ => h, fun _ => rfl⟩
  · exact ⟨_, if_neg h, nofun, fun hin => absurd hin h⟩

/-- Reading a PDF answers, unless it is read and asking for its flag raises. -/
theorem pdf_eq_error_iff {raised : Str} : pdf readers upload limits = .error raised ↔
    ∃ reader, readers.pdf upload.content = .ok reader ∧ reader.encrypted = .error raised := by
  unfold pdf
  cases readers.pdf upload.content with
  | error unreadable => exact ⟨nofun, fun ⟨_, h, _⟩ => absurd h nofun⟩
  | ok reader =>
      simp only [Except.ok.injEq, exists_eq_left']
      cases reader.encrypted with
      | error raised' => simp only [Except.error.injEq]
      | ok encrypted =>
          cases encrypted with
          | true => exact ⟨nofun, nofun⟩
          | false =>
              refine ⟨fun h => ?_, nofun⟩
              cases hpages : reader.pages with
              | error unreadable =>
                  rw [hpages] at h
                  cases h
              | ok pages =>
                  rw [hpages] at h
                  simp only at h
                  split at h
                  · cases h
                  · split at h <;> cases h

/-- Reading an archive's directory answers. -/
theorem archive_ne_error {raised : Str} : archive readers upload limits ≠ .error raised := by
  unfold archive
  cases readers.zip upload.content with
  | error unreadable => exact nofun
  | ok entries =>
      simp only
      split
      · exact nofun
      · split <;> exact nofun

theorem run_cons_of_ok {step : Step} {rest : List Step} {found : List Verdict}
    (h : step readers upload limits = .ok found) :
    run readers upload limits (step :: rest) =
      if ∀ verdict ∈ found, verdict.passed = true then
        (run readers upload limits rest).map (found ++ ·)
      else .ok found := by
  change (step readers upload limits >>= fun found => _) = _
  rw [h]
  change (if _ then _ else _) = _
  split
  · cases run readers upload limits rest <;> rfl
  · rfl

/-- Steps that check a document's size and type before they read it raise what
    reading it does, once both have passed. -/
theorem run_checks {last : Step} {raised : Str} :
    run readers upload limits [size, mediaType, last] = .error raised ↔
      (upload.content.length : Int) ≤ limits.maxBytes ∧ upload.mediaType ∈ limits.mediaTypes ∧
        last readers upload limits = .error raised := by
  rcases size_eq readers limits upload with ⟨s, hs, hsp⟩
  rcases mediaType_eq readers limits upload with ⟨m, hm, hmp⟩
  have hlast : run readers upload limits [last] = .error raised ↔
      last readers upload limits = .error raised := by
    cases h : last readers upload limits with
    | error other =>
        have hrun : run readers upload limits [last] = .error other := by
          change (last readers upload limits >>= fun found => _) = _
          rw [h]
          rfl
        rw [hrun]
    | ok found =>
        rw [run_cons_of_ok h]
        refine ⟨fun hrun => ?_, nofun⟩
        split at hrun <;> cases hrun
  rw [run_cons_of_ok hs, run_cons_of_ok hm, ← hlast, ← hsp, ← hmp]
  simp only [List.forall_mem_singleton]
  by_cases hsize : s.passed = true
  · by_cases hmedia : m.passed = true
    · simp only [hsize, hmedia, if_true, true_and]
      cases run readers upload limits [last] with
      | error other => exact Iff.rfl
      | ok found => exact ⟨nofun, nofun⟩
    · simp only [hsize, hmedia, if_true]
      exact ⟨nofun, fun h => absurd h.2.1 nofun⟩
  · simp only [hsize]
    exact ⟨nofun, fun h => absurd h.1 nofun⟩

theorem screened_eq_error_iff {raised : Str} :
    screened readers limits upload = .error raised ↔
      run readers upload limits (steps upload.mediaType) = .error raised := by
  unfold screened
  rw [Failing.bind_eq_error]
  refine ⟨fun h => h.elim id ?_, Or.inl⟩
  rintro ⟨found, _, h⟩
  cases h

/-- A document has no verdicts exactly when asking whether it is encrypted raises. -/
theorem flagRaises_iff :
    FlagRaises readers limits upload ↔
      ∃ raised, screened readers limits upload = .error raised := by
  simp only [screened_eq_error_iff]
  unfold FlagRaises steps
  split
  · rename_i hpdf
    simp only [run_checks, pdf_eq_error_iff, hpdf, true_and]
    constructor
    · rintro ⟨hsize, hmedia, reader, raised, hreader, hraised⟩
      exact ⟨raised, hsize, hmedia, reader, hreader, hraised⟩
    · rintro ⟨raised, hsize, hmedia, reader, hreader, hraised⟩
      exact ⟨hsize, hmedia, reader, raised, hreader, hraised⟩
  · rename_i hpdf
    refine ⟨fun h => absurd h.1 hpdf, ?_⟩
    rintro ⟨raised, h⟩
    split at h
    · exact absurd (run_checks.mp h).2.2 archive_ne_error
    · cases h

/-- A document's verdicts are about it, and there are some. -/
theorem screened_eq_ok {document : DocumentVerdicts}
    (h : screened readers limits upload = .ok document) :
    document.filename = upload.filename ∧ document.mediaType = upload.mediaType ∧
      document.verdicts ≠ [] := by
  unfold screened at h
  rcases Failing.bind_eq_ok.mp h with ⟨found, _, hdocument⟩
  cases hdocument
  refine ⟨rfl, rfl, ?_⟩
  simp only
  split
  · exact List.cons_ne_nil _ _
  · assumption

/-- A submission has no verdicts exactly when asking it of one of its documents
    raises. -/
theorem screen_eq_error_iff {uploads : List Upload} :
    (∃ raised, screen readers uploads limits = .error raised) ↔
      ∃ upload ∈ uploads, FlagRaises readers limits upload := by
  unfold screen
  simp only [Failing.exists_mapM_eq_error, flagRaises_iff]

/-- A submission's verdicts are one list a document, in the documents' order. -/
theorem forall₂_screen {uploads : List Upload} {verdicts : List DocumentVerdicts}
    (h : screen readers uploads limits = .ok verdicts) :
    List.Forall₂ (fun upload document => document.filename = upload.filename ∧
      document.mediaType = upload.mediaType ∧ document.verdicts ≠ []) uploads verdicts :=
  (Failing.mapM_eq_ok.mp h).imp fun _ _ hscreened => screened_eq_ok hscreened

/-- Nothing is refused exactly when every document's verdicts are clean. -/
theorem firstRefusal_eq_none_iff {verdicts : List DocumentVerdicts} :
    firstRefusal verdicts = none ↔ ∀ document ∈ verdicts, Clean document := by
  induction verdicts with
  | nil => exact ⟨fun _ _ h => absurd h List.not_mem_nil, fun _ => rfl⟩
  | cons document rest ih =>
      unfold firstRefusal
      rw [List.forall_mem_cons, ← ih]
      cases hfind : document.verdicts.find? fun verdict => ¬ verdict.passed with
      | some verdict =>
          refine ⟨nofun, fun h => ?_⟩
          have hrefused := List.find?_some hfind
          have hpassed := h.1 verdict (List.mem_of_find?_eq_some hfind)
          simp only [hpassed, not_true_eq_false, decide_false, Bool.false_eq_true] at hrefused
      | none =>
          refine ⟨fun h => ⟨fun verdict hmem => ?_, h⟩, fun h => h.2⟩
          have hnone := List.find?_eq_none.mp hfind verdict hmem
          rw [decide_eq_true_eq, not_not] at hnone
          exact hnone

/-- What is refused first is the first refusal of the first document that has
    one. -/
theorem firstRefusal_eq_some {verdicts : List DocumentVerdicts} {filename : Str} {verdict : Verdict}
    (h : firstRefusal verdicts = some (filename, verdict)) :
    ∃ pre document post before after, verdicts = pre ++ document :: post ∧ (∀ d ∈ pre, Clean d) ∧
      document.filename = filename ∧ document.verdicts = before ++ verdict :: after ∧
      (∀ v ∈ before, v.passed = true) ∧ verdict.passed = false := by
  induction verdicts with
  | nil => cases h
  | cons document rest ih =>
      unfold firstRefusal at h
      cases hfind : document.verdicts.find? fun verdict => ¬ verdict.passed with
      | some found =>
          rw [hfind] at h
          cases h
          rcases List.find?_eq_some_iff_append.mp hfind with ⟨hrefused, before, after,
            hsplit, hbefore⟩
          refine ⟨[], document, rest, before, after, rfl, fun _ h => absurd h List.not_mem_nil, rfl,
            hsplit, fun v hv => ?_, ?_⟩
          · simpa using hbefore v hv
          · simpa using hrefused
      | none =>
          rw [hfind] at h
          rcases ih h with ⟨pre, d, post, before, after, hsplit, hpre, hd⟩
          refine ⟨document :: pre, d, post, before, after, by rw [hsplit, List.cons_append],
            fun e he => ?_, hd⟩
          rcases List.mem_cons.mp he with rfl | he
          · intro v hv
            simpa using List.find?_eq_none.mp hfind v hv
          · exact hpre e he

/-! ### One document -/

/-- Verdicts that let through, and one after them. -/
def Stopping (verdicts : List Verdict) : Prop :=
  ∃ before last, verdicts = before ++ [last] ∧ ∀ v ∈ before, v.passed = true

theorem Stopping.append {found rest : List Verdict} (h : Stopping rest)
    (hfound : ∀ v ∈ found, v.passed = true) : Stopping (found ++ rest) := by
  rcases h with ⟨before, last, rfl, hbefore⟩
  refine ⟨found ++ before, last, (List.append_assoc _ _ _).symm, fun v hv => ?_⟩
  rcases List.mem_append.mp hv with hv | hv
  · exact hfound v hv
  · exact hbefore v hv

end

end Ingress

end ClaimTriage
