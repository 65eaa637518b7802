import ClaimTriage.Model.Replay
import Mathlib.Data.List.Find

/-!
# What a Fixture Set Answers

What a call comes to is a matter of what has been recorded, not of the files it is
recorded in. `recalled` is that alone: a set of recordings, no two of one call, and
the answer of the one that was recorded for the call that is asked.

The adapter is that set (`wordless_answer`) as far as its exceptions' texts go, which
name files. So what a call comes to stays what it is when files are renamed, listed
in another order or joined by others of other calls, and a fixture that is edited
into another call no longer answers the one it was recorded for.

What the adapter has no answer for it should say so of. A call whose texts hold a
surrogate is not in any set, and has no digest either: it is looked up by nothing,
and what is raised is not that it is unrecorded (`replays_iff`).

## Main definitions

* `Holds`: The fixtures a directory's files hold.
* `RecordedTwice`: Two files record one call.
* `recalled`: What a set of recordings answers a call.
* `Replays`: The adapter answers a call by what is recorded.

## Theorems

* `init_of_once`, `init_of_twice`: When a set is read and when it is refused.
* `answer_of_encodable`, `answer_of_not_encodable`: What a call comes to.
* `answer_of_mem`, `noFixture_iff`: The file that answers it, and when there is none.
* `wordless_answer`: The adapter answers what its recordings do.
* `recalled_perm`, `recalled_append`: Which do so in any order, and whatever else is
  recorded.
* `replays_iff`: When a call is answered by what is recorded.
-/

namespace ClaimTriage

namespace Replay

open Theory Text Value Port

variable {α : Type} {validateJson : Str → Except Str ReplayFixture} {directory : Directory}
  {files : List (Str × ReplayFixture)} {call : ModelCall α}

/-- A directory holds fixtures, and these are the files and what they record, in the
    order they are listed. -/
def Holds (validateJson : Str → Except Str ReplayFixture) (directory : Directory)
    (files : List (Str × ReplayFixture)) : Prop :=
  ∃ found, directory.entries = some found ∧
    List.Forall₂ (fun e file => e.1 = file.1 ∧
      fixture validateJson (directory.join e.1) e.2 = .ok file.2)
      (found.filter fun e => fixtureSuffix <:+ e.1) files

/-- The calls some files record. -/
def identities (files : List (Str × ReplayFixture)) : List Identity :=
  files.map fun file => file.2.identity

/-- Two files record the same call. -/
def RecordedTwice (files : List (Str × ReplayFixture)) : Prop :=
  ∃ p ∈ files, ∃ q ∈ files, p.1 ≠ q.1 ∧ p.2.identity = q.2.identity

instance (files : List (Str × ReplayFixture)) : Decidable (RecordedTwice files) :=
  inferInstanceAs (Decidable (∃ p ∈ files, ∃ q ∈ files, p.1 ≠ q.1 ∧ p.2.identity = q.2.identity))

/-- What a set of recordings answers a call, whatever files they are in. -/
def recalled (fixtures : List ReplayFixture) (call : ModelCall α) : Except Raised α :=
  match fixtures.find? fun fixture => call.identity == fixture.identity with
  | none => .error (.noFixture [])
  | some fixture => (Recorded.answer ⟨fixture, []⟩ call).mapError Raised.wordless

/-- A file as it stands in the index. -/
def keyed (directory : Directory) (file : Str × ReplayFixture) : Str × Recorded :=
  (file.2.identity.digest, ⟨file.2, directory.join file.1⟩)

/-- All of them, as they are read. -/
def indexed (directory : Directory) (files : List (Str × ReplayFixture)) :
    List (Str × Recorded) :=
  (Ordered.sortBy Prod.fst files).map (keyed directory)

section Reading

theorem encodable_identity (recorded : ReplayFixture) : recorded.identity.Encodable :=
  recorded.encodable

/-- A fixture is recorded under the digest of its call. -/
theorem recordedAt_eq {e : Str × Except Raised Str} {recorded : ReplayFixture}
    (h : fixture validateJson (directory.join e.1) e.2 = .ok recorded) :
    recordedAt validateJson directory e = .ok (keyed directory (e.1, recorded)) := by
  have hdigest := callFingerprint_eq recorded.identity
  rw [if_pos (encodable_identity recorded)] at hdigest
  unfold recordedAt
  refine Failing.bind_eq_ok.mpr ⟨recorded, h, ?_⟩
  exact Failing.bind_eq_ok.mpr ⟨recorded.identity.digest, hdigest, rfl⟩

theorem names_of_holds {found : List (Str × Except Raised Str)}
    (h : List.Forall₂ (fun e file => e.1 = file.1 ∧
      fixture validateJson (directory.join e.1) e.2 = .ok file.2)
      (found.filter fun e => fixtureSuffix <:+ e.1) files) :
    files.map Prod.fst = (found.filter fun e => fixtureSuffix <:+ e.1).map Prod.fst := by
  have hnames : List.Forall₂ Eq ((found.filter fun e => fixtureSuffix <:+ e.1).map Prod.fst)
      (files.map Prod.fst) :=
    List.forall₂_map_left_iff.mpr (List.forall₂_map_right_iff.mpr (h.imp fun _ _ he => he.1))
  rw [List.forall₂_eq_eq_eq] at hnames
  exact hnames.symm

/-- No two files of a directory have one name. -/
theorem nodup_of_holds (h : Holds validateJson directory files) :
    (files.map Prod.fst).Nodup := by
  rcases h with ⟨found, hfound, hfiles⟩
  rw [names_of_holds hfiles]
  exact (List.filter_sublist.map _).nodup (directory.nodup found hfound)

/-- The files of a directory of fixtures are read in order of their names, each to
    what it records. -/
theorem loaded_of_holds (h : Holds validateJson directory files) :
    ∃ found, directory.entries = some found ∧ ((named found).map Prod.fst).Nodup ∧
      List.Forall₂ (fun e x => recordedAt validateJson directory e = .ok x) (named found)
        (indexed directory files) ∧
      ∀ e ∈ named found, ∃ file ∈ files, e.1 = file.1 ∧
        recordedAt validateJson directory e = .ok (keyed directory file) := by
  have hnodup := nodup_of_holds h
  rcases h with ⟨found, hfound, hfiles⟩
  have hread := hfiles.imp fun e file he => by
    have heq := recordedAt_eq he.2
    rw [he.1] at heq
    exact (⟨he.1, heq⟩ : e.1 = file.1 ∧
      recordedAt validateJson directory e = .ok (keyed directory file))
  refine ⟨found, hfound, ?_, ?_, fun e he => ?_⟩
  · rw [names_of_holds hfiles] at hnodup
    exact (((Ordered.perm_sortBy Prod.fst _).map Prod.fst).nodup_iff).mpr hnodup
  · unfold indexed
    rw [List.forall₂_map_right_iff]
    have hsorted := Ordered.forall₂_insertionSort (r := fun a b => a.1 ≤ b.1)
      (s := fun a b => a.1 ≤ b.1) (fun a b a' b' hab hab' => by rw [hab.1, hab'.1]) hread
    exact hsorted.imp fun _ _ hx => hx.2
  · have hmem := (Ordered.perm_sortBy Prod.fst _).mem_iff.mp he
    exact Ordered.exists_mem_of_forall₂ hread hmem

/-- A model is built of what is collected. -/
theorem init_eq {found : List (Str × Except Raised Str)} (h : directory.entries = some found) :
    ReplayModel.init validateJson directory =
      (Index.collect (recordedAt validateJson directory) (sameCall directory) []
        (named found)).map (ReplayModel.mk directory.path) := by
  unfold ReplayModel.init read
  rw [h]
  rfl

end Reading

section Building

theorem mem_identities {file : Str × ReplayFixture} (h : file ∈ files) :
    file.2.identity ∈ identities files :=
  List.mem_map_of_mem (f := fun file : Str × ReplayFixture => file.2.identity) h

/-- Two files of one digest record one call. -/
theorem digest_eq_iff (hapart : Apart (identities files)) {p q : Str × ReplayFixture}
    (hp : p ∈ files) (hq : q ∈ files) :
    p.2.identity.digest = q.2.identity.digest ↔ p.2.identity = q.2.identity :=
  Identity.digest_eq_iff hapart (mem_identities hp) (mem_identities hq) (encodable_identity p.2)
    (encodable_identity q.2)

/-- Where no texts collide, the digests are all different exactly if no call is
    recorded twice. -/
theorem nodup_digests_iff (hnames : (files.map Prod.fst).Nodup)
    (hapart : Apart (identities files)) :
    (files.map fun file => file.2.identity.digest).Nodup ↔ ¬ RecordedTwice files := by
  rw [List.nodup_map_iff_inj_on hnames.of_map]
  constructor
  · rintro hinj ⟨p, hp, q, hq, hne, hidentity⟩
    exact hne (congrArg Prod.fst (hinj p hp q hq ((digest_eq_iff hapart hp hq).mpr hidentity)))
  · intro honce p hp q hq hdigest
    by_contra hpq
    -- Two files of one name are one file.
    have hne : p.1 ≠ q.1 := fun h => hpq (List.inj_on_of_nodup_map hnames hp hq h)
    exact honce ⟨p, hp, q, hq, hne, (digest_eq_iff hapart hp hq).mp hdigest⟩

theorem nodup_indexed_iff (h : Holds validateJson directory files)
    (hapart : Apart (identities files)) :
    ((indexed directory files).map Prod.fst).Nodup ↔ ¬ RecordedTwice files := by
  have hperm := (Ordered.perm_sortBy Prod.fst files).map fun file => file.2.identity.digest
  unfold indexed
  rw [List.map_map]
  exact hperm.nodup_iff.trans (nodup_digests_iff (nodup_of_holds h) hapart)

/-- A set in which no call is recorded twice is read, each file under its call. -/
theorem init_of_once (h : Holds validateJson directory files)
    (hapart : Apart (identities files)) (honce : ¬ RecordedTwice files) :
    ReplayModel.init validateJson directory =
      .ok ⟨directory.path, indexed directory files⟩ := by
  have hkeys := (nodup_indexed_iff h hapart).mpr honce
  rcases loaded_of_holds h with ⟨found, hfound, -, hloaded, -⟩
  rw [← List.nil_append (indexed directory files)] at hkeys
  rw [init_eq hfound, Index.collect_of_nodup (sameCall directory) hloaded hkeys]
  rfl

/-- A set in which a call is recorded twice is refused, naming two files that do. -/
theorem init_of_twice (h : Holds validateJson directory files)
    (hapart : Apart (identities files)) (htwice : RecordedTwice files) :
    ∃ p ∈ files, ∃ q ∈ files, p.1 ≠ q.1 ∧ p.2.identity = q.2.identity ∧
      ReplayModel.init validateJson directory =
        .error (.unusableFixture (directory.join p.1 ++ text " and " ++ directory.join q.1 ++
          text " record the same call")) := by
  have hkeys := mt (nodup_indexed_iff h hapart).mp (not_not.mpr htwice)
  rcases loaded_of_holds h with ⟨found, hfound, hnames, hloaded, hfile⟩
  rw [← List.nil_append (indexed directory files)] at hkeys
  have hnone : (([] : List (Str × Recorded)).map Prod.fst).Nodup := List.nodup_nil
  rcases Index.collect_of_not_nodup (sameCall directory) hloaded hnone hkeys with
    ⟨before, b, after, e, other, hsplit, hb, hheld | ⟨a, ha, hother⟩, hrefused⟩
  · exact absurd hheld List.not_mem_nil
  rw [hsplit] at hfile hnames
  rcases hfile b (List.mem_append_right _ List.mem_cons_self) with ⟨p, hp, hbp, hpread⟩
  rcases hfile a (List.mem_append_left _ ha) with ⟨q, hq, haq, hqread⟩
  rw [hb, Except.ok.injEq] at hpread
  rw [hother, Except.ok.injEq] at hqread
  -- The two come under one digest, and are of two names.
  have hdigest : p.2.identity.digest = q.2.identity.digest := by
    rw [hpread] at hqread
    exact congrArg Prod.fst hqread
  have hne : p.1 ≠ q.1 := by
    rw [List.map_append, List.map_cons, List.nodup_append] at hnames
    rw [← hbp, ← haq]
    exact (hnames.2.2 _ (List.mem_map_of_mem ha) _ List.mem_cons_self).symm
  have hpath : other.path = directory.join q.1 :=
    congrArg (fun entry : Str × Recorded => entry.2.path) hqread
  refine ⟨p, hp, q, hq, hne, (digest_eq_iff hapart hp hq).mp hdigest, ?_⟩
  rw [init_eq hfound, hrefused, ← hpath, ← hbp]
  rfl

/-- A set of fixtures is refused exactly if a call is recorded twice. -/
theorem init_eq_error_iff (h : Holds validateJson directory files)
    (hapart : Apart (identities files)) :
    (∃ raised, ReplayModel.init validateJson directory = .error raised) ↔
      RecordedTwice files := by
  constructor
  · rintro ⟨raised, hraised⟩
    by_contra honce
    rw [init_of_once h hapart honce] at hraised
    cases hraised
  · intro htwice
    rcases init_of_twice h hapart htwice with ⟨_, _, _, _, _, _, hrefused⟩
    exact ⟨_, hrefused⟩

/-- What is built of a set of fixtures, where anything is. -/
theorem eq_of_init (h : Holds validateJson directory files) (hapart : Apart (identities files))
    {model : ReplayModel} (hmodel : ReplayModel.init validateJson directory = .ok model) :
    ¬ RecordedTwice files ∧ model = ⟨directory.path, indexed directory files⟩ := by
  have honce : ¬ RecordedTwice files := by
    intro htwice
    rcases (init_eq_error_iff h hapart).mpr htwice with ⟨raised, hraised⟩
    rw [hmodel] at hraised
    cases hraised
  rw [init_of_once h hapart honce] at hmodel
  exact ⟨honce, (Except.ok.inj hmodel).symm⟩

end Building

section Answering

variable {repr : Str → Str} {model : ReplayModel}

/-- The call and the calls the files record do not collide. -/
theorem apart_files (hapart : Apart (call.identity :: identities files)) :
    Apart (identities files) :=
  hapart.mono (List.subset_cons_self _ _)

/-- What is found under a call's digest is the file that records the call. -/
theorem lookup_indexed (hapart : Apart (call.identity :: identities files))
    (hcall : call.identity.Encodable) :
    (indexed directory files).lookup call.identity.digest =
      ((Ordered.sortBy Prod.fst files).find? fun file => call.identity == file.2.identity).map
        fun file => ⟨file.2, directory.join file.1⟩ := by
  have hfound := Index.lookup_map (fun file : Str × ReplayFixture => file.2.identity.digest)
    (fun file => (⟨file.2, directory.join file.1⟩ : Recorded)) (Ordered.sortBy Prod.fst files)
    call.identity.digest
  refine hfound.trans (congrArg _ (List.find?_congr fun file hfile => ?_))
  have hmem := (Ordered.perm_sortBy Prod.fst files).mem_iff.mp hfile
  have hiff := Identity.digest_eq_iff hapart List.mem_cons_self
    (List.mem_cons_of_mem _ (mem_identities hmem)) hcall (encodable_identity file.2)
  rw [Bool.eq_iff_iff, beq_iff_eq, beq_iff_eq]
  exact hiff

/-- No two files record one call, so their identities are different ones. -/
theorem nodup_identities (hnames : (files.map Prod.fst).Nodup) (honce : ¬ RecordedTwice files) :
    (identities files).Nodup := by
  unfold identities
  rw [List.nodup_map_iff_inj_on hnames.of_map]
  intro p hp q hq hidentity
  by_contra hpq
  exact honce ⟨p, hp, q, hq, fun h => hpq (List.inj_on_of_nodup_map hnames hp hq h), hidentity⟩

/-- The file that is found for a call is the one that records it, whichever order
    they are in. -/
theorem find?_sortBy_iff (hnames : (files.map Prod.fst).Nodup) (honce : ¬ RecordedTwice files)
    {file : Str × ReplayFixture} :
    (Ordered.sortBy Prod.fst files).find? (fun file => call.identity == file.2.identity) =
      some file ↔ file ∈ files ∧ file.2.identity = call.identity := by
  have hperm := Ordered.perm_sortBy Prod.fst files
  have hkeys : ((Ordered.sortBy Prod.fst files).map fun file => file.2.identity).Nodup :=
    ((hperm.map _).nodup_iff).mpr (nodup_identities hnames honce)
  rw [Index.find?_eq_some_iff hkeys, hperm.mem_iff]

theorem answer_of_lookup {digest : Str} (hdigest : call.fingerprint = .ok digest) :
    (∀ recorded, model.recorded.lookup digest = some recorded →
      model.answer repr call = recorded.answer call) ∧
    (model.recorded.lookup digest = none →
      ∃ message, model.answer repr call = .error (.noFixture message)) := by
  unfold ReplayModel.answer
  rw [hdigest]
  constructor
  · intro recorded h
    simp only [bind, Except.bind, h]
  · intro h
    simp only [bind, Except.bind, h]
    exact ⟨_, rfl⟩

/-- What a call comes to, by the file that is found for it. -/
theorem answer_of_encodable (h : Holds validateJson directory files)
    (hapart : Apart (call.identity :: identities files)) (hcall : call.identity.Encodable)
    (hmodel : ReplayModel.init validateJson directory = .ok model) :
    (∃ file ∈ files, file.2.identity = call.identity ∧
      model.answer repr call = Recorded.answer ⟨file.2, directory.join file.1⟩ call) ∨
    ((∀ file ∈ files, file.2.identity ≠ call.identity) ∧
      ∃ message, model.answer repr call = .error (.noFixture message)) := by
  rcases eq_of_init h (apart_files hapart) hmodel with ⟨honce, rfl⟩
  have hdigest : call.fingerprint = .ok call.identity.digest := by
    have heq := callFingerprint_eq call.identity
    rwa [if_pos hcall] at heq
  have hlookup := @lookup_indexed _ directory _ _ hapart hcall
  have hanswer := @answer_of_lookup _ call repr ⟨directory.path, indexed directory files⟩ _ hdigest
  cases hfound : (Ordered.sortBy Prod.fst files).find? fun file =>
      call.identity == file.2.identity with
  | some file =>
      have hfile := (find?_sortBy_iff (nodup_of_holds h) honce).mp hfound
      rw [hfound] at hlookup
      exact Or.inl ⟨file, hfile.1, hfile.2, hanswer.1 _ hlookup⟩
  | none =>
      rw [hfound] at hlookup
      rw [List.find?_eq_none] at hfound
      refine Or.inr ⟨fun file hfile hidentity => ?_, hanswer.2 hlookup⟩
      refine hfound file ((Ordered.perm_sortBy Prod.fst files).mem_iff.mpr hfile) ?_
      rw [hidentity, beq_self_eq_true]

/-- A call that holds a surrogate has no digest to be looked up by. -/
theorem answer_of_not_encodable (hcall : ¬ call.identity.Encodable) :
    model.answer repr call = .error .unicodeEncodeError := by
  have hdigest : call.fingerprint = .error .unicodeEncodeError := by
    have heq := callFingerprint_eq call.identity
    rwa [if_neg hcall] at heq
  unfold ReplayModel.answer
  rw [hdigest]
  rfl

end Answering

section Refinement

variable {repr : Str → Str} {model : ReplayModel}

/-- What is answered from a fixture is told by the fixture, but for the path in what
    is said of one that does not fit. -/
theorem wordless_recorded (recorded : Recorded) :
    (recorded.answer call).mapError Raised.wordless =
      (Recorded.answer ⟨recorded.fixture, []⟩ call).mapError Raised.wordless := by
  unfold Recorded.answer
  rcases call.answerAs.modelValidate recorded.fixture.answer with (_ | _) | answer <;> rfl

theorem recorded_answer_ne (recorded : Recorded) (message : Str) :
    recorded.answer call ≠ .error (.noFixture message) := by
  unfold Recorded.answer
  rcases call.answerAs.modelValidate recorded.fixture.answer with (_ | _) | answer <;> exact nofun

/-- The order of the recordings does not matter. -/
theorem recalled_perm {fixtures others : List ReplayFixture} (hperm : fixtures.Perm others)
    (hnodup : (fixtures.map ReplayFixture.identity).Nodup) :
    recalled fixtures call = recalled others call := by
  unfold recalled
  rw [Index.find?_perm hperm hnodup]

/-- Recordings of other calls do not matter. -/
theorem recalled_append {fixtures added : List ReplayFixture}
    (h : ∀ fixture ∈ added, fixture.identity ≠ call.identity) :
    recalled (fixtures ++ added) call = recalled fixtures call := by
  unfold recalled
  rw [Index.find?_append_of_ne h]

/-- A call that is not among the recordings is answered by none. -/
theorem recalled_of_ne {fixtures : List ReplayFixture}
    (h : ∀ fixture ∈ fixtures, fixture.identity ≠ call.identity) :
    recalled fixtures call = .error (.noFixture []) := by
  have hnone := @recalled_append _ call [] _ h
  rwa [List.nil_append] at hnone

theorem map_identity (files : List (Str × ReplayFixture)) :
    (files.map Prod.snd).map ReplayFixture.identity = identities files :=
  List.map_map

/-- The adapter answers a call as the recordings of its directory do, but for what
    its exceptions say. -/
theorem wordless_answer (h : Holds validateJson directory files)
    (hapart : Apart (call.identity :: identities files)) (hcall : call.identity.Encodable)
    (hmodel : ReplayModel.init validateJson directory = .ok model) :
    (model.answer repr call).mapError Raised.wordless = recalled (files.map Prod.snd) call := by
  rcases @answer_of_encodable _ _ _ _ _ repr _ h hapart hcall hmodel with
    ⟨file, hfile, hidentity, hanswer⟩ | ⟨hnone, message, hanswer⟩
  · rcases eq_of_init h (apart_files hapart) hmodel with ⟨honce, -⟩
    have hkeys : ((files.map Prod.snd).map ReplayFixture.identity).Nodup := by
      rw [map_identity]
      exact nodup_identities (nodup_of_holds h) honce
    have hfound := (Index.find?_eq_some_iff hkeys).mpr
      ⟨List.mem_map_of_mem (f := Prod.snd) hfile, hidentity⟩
    unfold recalled
    rw [hfound, hanswer]
    exact wordless_recorded _
  · rw [recalled_of_ne (List.forall_mem_map.mpr hnone), hanswer]
    rfl

/-- Two sets that are built of the same recordings of a call answer it alike, also
    where it has no digest. -/
theorem wordless_congr (h : Holds validateJson directory files)
    (hapart : Apart (call.identity :: identities files)) {other : Directory}
    {others : List (Str × ReplayFixture)} (hother : Holds validateJson other others)
    (hapart' : Apart (call.identity :: identities others)) {after : ReplayModel}
    (hmodel : ReplayModel.init validateJson directory = .ok model)
    (hafter : ReplayModel.init validateJson other = .ok after)
    (hrecall : recalled (others.map Prod.snd) call = recalled (files.map Prod.snd) call) :
    (after.answer repr call).mapError Raised.wordless =
      (model.answer repr call).mapError Raised.wordless := by
  by_cases hcall : call.identity.Encodable
  · rw [wordless_answer hother hapart' hcall hafter, wordless_answer h hapart hcall hmodel, hrecall]
  · rw [answer_of_not_encodable hcall, answer_of_not_encodable hcall]

end Refinement

section Replaying

variable (repr : Str → Str) (validateJson) (directory) (files) (call)

/-- The adapter answers a call by what is recorded. A set is refused exactly if two
    files record one call; of a set that is not, the one file that records the call
    answers it, and exactly if there is none that is what is raised. So what the call
    comes to is the same for the same recordings in other files and in another order,
    and for a set that others of other calls are added to; and once the fixture that
    answers the call is edited into another call, nothing does. -/
structure Replays : Prop where
  refused : (∃ raised, ReplayModel.init validateJson directory = .error raised) ↔
    RecordedTwice files
  answered : ∀ model, ReplayModel.init validateJson directory = .ok model →
    ∀ file ∈ files, file.2.identity = call.identity →
      model.answer repr call = Recorded.answer ⟨file.2, directory.join file.1⟩ call ∧
      ∀ other ∈ files, other.2.identity = call.identity → other = file
  absent : ∀ model, ReplayModel.init validateJson directory = .ok model →
    ((∃ message, model.answer repr call = .error (.noFixture message)) ↔
      ∀ file ∈ files, file.2.identity ≠ call.identity)
  moved : ∀ other moved, Holds validateJson other moved →
    (moved.map Prod.snd).Perm (files.map Prod.snd) →
    ∀ model, ReplayModel.init validateJson directory = .ok model →
      ∃ after, ReplayModel.init validateJson other = .ok after ∧
        (after.answer repr call).mapError Raised.wordless =
          (model.answer repr call).mapError Raised.wordless
  added : ∀ other more added, Holds validateJson other more →
    Apart (call.identity :: identities more) →
    (more.map Prod.snd).Perm (files.map Prod.snd ++ added) →
    (∀ fixture ∈ added, fixture.identity ≠ call.identity) →
    ∀ model after, ReplayModel.init validateJson directory = .ok model →
      ReplayModel.init validateJson other = .ok after →
        (after.answer repr call).mapError Raised.wordless =
          (model.answer repr call).mapError Raised.wordless
  edited : ∀ other before name fixture edited after,
    files = before ++ (name, fixture) :: after → fixture.identity = call.identity →
    edited.identity ≠ fixture.identity →
    Holds validateJson other (before ++ (name, edited) :: after) →
    Apart (call.identity :: identities (before ++ (name, edited) :: after)) →
    ∀ model changed, ReplayModel.init validateJson directory = .ok model →
      ReplayModel.init validateJson other = .ok changed →
        ∃ message, changed.answer repr call = .error (.noFixture message)

variable {repr} {validateJson} {directory} {files} {call}

/-- The one file that records a call answers it. -/
theorem answer_of_mem (h : Holds validateJson directory files)
    (hapart : Apart (call.identity :: identities files)) (hcall : call.identity.Encodable)
    {model : ReplayModel} (hmodel : ReplayModel.init validateJson directory = .ok model)
    {file : Str × ReplayFixture} (hfile : file ∈ files)
    (hidentity : file.2.identity = call.identity) :
    model.answer repr call = Recorded.answer ⟨file.2, directory.join file.1⟩ call ∧
      ∀ other ∈ files, other.2.identity = call.identity → other = file := by
  have honce := (eq_of_init h (apart_files hapart) hmodel).1
  have honly := nodup_identities (nodup_of_holds h) honce
  have hone : ∀ other ∈ files, other.2.identity = call.identity → other = file :=
    fun other hother hsame =>
      List.inj_on_of_nodup_map honly hother hfile (hsame.trans hidentity.symm)
  rcases @answer_of_encodable _ _ _ _ _ repr _ h hapart hcall hmodel with
    ⟨found, hfound, hsame, hanswer⟩ | ⟨hnone, -⟩
  · rw [hone found hfound hsame] at hanswer
    exact ⟨hanswer, hone⟩
  · exact absurd hidentity (hnone file hfile)

/-- A call is told to be unrecorded exactly if no file records it. -/
theorem noFixture_iff (h : Holds validateJson directory files)
    (hapart : Apart (call.identity :: identities files)) (hcall : call.identity.Encodable)
    {model : ReplayModel} (hmodel : ReplayModel.init validateJson directory = .ok model) :
    (∃ message, model.answer repr call = .error (.noFixture message)) ↔
      ∀ file ∈ files, file.2.identity ≠ call.identity := by
  rcases @answer_of_encodable _ _ _ _ _ repr _ h hapart hcall hmodel with
    ⟨file, hfile, hidentity, hanswer⟩ | ⟨hnone, hmessage⟩
  · refine iff_of_false ?_ fun hnone => hnone file hfile hidentity
    rintro ⟨message, hmessage⟩
    rw [hanswer] at hmessage
    exact recorded_answer_ne _ _ hmessage
  · exact iff_of_true hmessage hnone

/-- The same recordings in other files have none twice if the files had none. -/
theorem recordedTwice_congr {moved : List (Str × ReplayFixture)}
    (hfiles : (files.map Prod.fst).Nodup) (hperm : (moved.map Prod.snd).Perm (files.map Prod.snd)) :
    RecordedTwice moved → RecordedTwice files := by
  intro htwice
  by_contra honce
  have hnodup := nodup_identities hfiles honce
  rw [← map_identity, ← (hperm.map ReplayFixture.identity).nodup_iff, map_identity] at hnodup
  rcases htwice with ⟨p, hp, q, hq, hne, hidentity⟩
  have hpq := List.inj_on_of_nodup_map hnodup hp hq hidentity
  exact hne (congrArg Prod.fst hpq)

/-- The same recordings in other files answer as they did. -/
theorem moved_answer (h : Holds validateJson directory files)
    (hapart : Apart (call.identity :: identities files)) {other : Directory}
    {moved : List (Str × ReplayFixture)} (hother : Holds validateJson other moved)
    (hperm : (moved.map Prod.snd).Perm (files.map Prod.snd)) {model : ReplayModel}
    (hmodel : ReplayModel.init validateJson directory = .ok model) :
    ∃ after, ReplayModel.init validateJson other = .ok after ∧
      (after.answer repr call).mapError Raised.wordless =
        (model.answer repr call).mapError Raised.wordless := by
  rcases eq_of_init h (apart_files hapart) hmodel with ⟨honce, -⟩
  have hidentities := hperm.map ReplayFixture.identity
  rw [map_identity, map_identity] at hidentities
  have hapart' : Apart (call.identity :: identities moved) :=
    hapart.mono (hidentities.cons call.identity).subset
  have honce' := mt (recordedTwice_congr (nodup_of_holds h) hperm) honce
  have hafter := init_of_once hother (apart_files hapart') honce'
  refine ⟨_, hafter, wordless_congr h hapart hother hapart' hmodel hafter ?_⟩
  refine recalled_perm hperm ?_
  rw [map_identity]
  exact nodup_identities (nodup_of_holds hother) honce'

/-- Recordings that are added of other calls leave the answer as it was. -/
theorem added_answer (h : Holds validateJson directory files)
    (hapart : Apart (call.identity :: identities files)) {other : Directory}
    {more : List (Str × ReplayFixture)} {added : List ReplayFixture}
    (hother : Holds validateJson other more)
    (hapart' : Apart (call.identity :: identities more))
    (hperm : (more.map Prod.snd).Perm (files.map Prod.snd ++ added))
    (hadded : ∀ fixture ∈ added, fixture.identity ≠ call.identity) {model after : ReplayModel}
    (hmodel : ReplayModel.init validateJson directory = .ok model)
    (hafter : ReplayModel.init validateJson other = .ok after) :
    (after.answer repr call).mapError Raised.wordless =
      (model.answer repr call).mapError Raised.wordless := by
  rcases eq_of_init hother (apart_files hapart') hafter with ⟨honce, -⟩
  have hnodup : ((more.map Prod.snd).map ReplayFixture.identity).Nodup := by
    rw [map_identity]
    exact nodup_identities (nodup_of_holds hother) honce
  refine wordless_congr h hapart hother hapart' hmodel hafter ?_
  rw [recalled_perm hperm hnodup, recalled_append hadded]

/-- A fixture that is edited into another call leaves the one it was recorded for
    without an answer. -/
theorem edited_answer {before after : List (Str × ReplayFixture)} {name : Str}
    {recorded edited : ReplayFixture} (hnames :
      ((before ++ (name, recorded) :: after).map Prod.fst).Nodup)
    (honce : ¬ RecordedTwice (before ++ (name, recorded) :: after))
    (hcall : recorded.identity = call.identity) (hne : edited.identity ≠ recorded.identity)
    {other : Directory} (hother : Holds validateJson other (before ++ (name, edited) :: after))
    (hapart : Apart (call.identity :: identities (before ++ (name, edited) :: after)))
    {model : ReplayModel} (hmodel : ReplayModel.init validateJson other = .ok model) :
    ∃ message, model.answer repr call = .error (.noFixture message) := by
  have hencodable : call.identity.Encodable := hcall ▸ encodable_identity recorded
  -- It was the only one of its call.
  have honly := nodup_identities hnames honce
  unfold identities at honly
  rw [List.map_append, List.map_cons, List.nodup_append, List.nodup_cons] at honly
  rcases answer_of_encodable hother hapart hencodable hmodel with
    ⟨file, hfile, hidentity, -⟩ | ⟨-, hnone⟩
  · exfalso
    rcases List.mem_append.mp hfile with hbefore | hrest
    · exact honly.2.2 _ (mem_identities hbefore) _ List.mem_cons_self
        (hidentity.trans hcall.symm)
    · rcases List.mem_cons.mp hrest with rfl | hafter
      · exact hne (hidentity.trans hcall.symm)
      · refine honly.2.1.1 ?_
        rw [hcall, ← hidentity]
        exact mem_identities hafter
  · exact hnone

/-- Of a set that is built a call without a digest is not told to be unrecorded. -/
theorem not_replays (hholds : Holds validateJson directory files)
    (hapart : Apart (identities files)) (honce : ¬ RecordedTwice files)
    (hcall : ¬ call.identity.Encodable) :
    ¬ Replays validateJson directory files call repr := by
  intro hreplays
  have hmodel := init_of_once hholds hapart honce
  -- No fixture holds a surrogate, so none is of the call.
  have hnone : ∀ file ∈ files, file.2.identity ≠ call.identity :=
    fun file _ heq => hcall (heq ▸ encodable_identity file.2)
  rcases (hreplays.absent _ hmodel).mpr hnone with ⟨message, hmessage⟩
  rw [answer_of_not_encodable hcall] at hmessage
  cases hmessage

variable (repr) (call) in
/-- A call is answered by what is recorded exactly if there is nothing to answer it
    with, or the call has a digest: if it holds no surrogate. -/
theorem replays_iff (hholds : Holds validateJson directory files)
    (hapart : Apart (call.identity :: identities files)) :
    Replays validateJson directory files call repr ↔
      RecordedTwice files ∨ call.identity.Encodable := by
  have hrefused := init_eq_error_iff hholds (apart_files hapart)
  constructor
  · intro hreplays
    by_contra hnot
    rw [not_or] at hnot
    exact not_replays hholds (apart_files hapart) hnot.1 hnot.2 hreplays
  · intro hcond
    have hcall : ∀ model, ReplayModel.init validateJson directory = .ok model →
        call.identity.Encodable := fun model hmodel =>
      hcond.resolve_left (eq_of_init hholds (apart_files hapart) hmodel).1
    refine ⟨hrefused,
      fun model hmodel file hfile hidentity =>
        answer_of_mem hholds hapart (hcall model hmodel) hmodel hfile hidentity,
      fun model hmodel => noFixture_iff hholds hapart (hcall model hmodel) hmodel,
      fun other moved hother hperm model hmodel => moved_answer hholds hapart hother hperm hmodel,
      fun other more added hother hapart' hperm hadded model after hmodel hafter =>
        added_answer hholds hapart hother hapart' hperm hadded hmodel hafter, ?_⟩
    rintro other before name recorded edited after rfl hsame hne hother hapart' model changed
      hmodel hchanged
    have honce := (eq_of_init hholds (apart_files hapart) hmodel).1
    exact edited_answer (nodup_of_holds hholds) honce hsame hne hother hapart' hchanged

end Replaying

section Example

/-- A shape of one field, which is a text. -/
def note : AnswerModel Str where
  moduleName := text "claim_triage.sample"
  qualname := text "Note"
  modelValidate
    | [(key, .str body)] =>
        if key = text "body" then .ok body else .error (.validationError (text "Field required"))
    | _ => .error (.validationError (text "Field required"))

/-- The note of a document, as a model read it. -/
def readingOf (content body : Str) (h : Encodable content) : ReplayFixture where
  task := text "Read the note."
  content := content
  answerAs := text "claim_triage.sample.Note"
  answer := [(text "body", .str body)]
  encodable :=
    have htask : Encodable (text "Read the note.") := by decide
    have hschema : Encodable (text "claim_triage.sample.Note") := by decide
    ⟨htask, h, hschema⟩

def firstReading : ReplayFixture :=
  readingOf (text "first") (text "one") (by decide)

def secondReading : ReplayFixture :=
  readingOf (text "second") (text "two") (by decide)

/-- The text of a file the reading of a note is recorded in. -/
def fileOf (content body : String) : Str :=
  text "\x7b\"task\": \"Read the note.\", \"content\": \"" ++ text content ++
    text "\", \"answer_as\": \"claim_triage.sample.Note\", \"answer\": \x7b\"body\": \"" ++
    text body ++ text "\"\x7d\x7d"

/-- What is read of these files, and of a text that is none of them. -/
def validateNotes (s : Str) : Except Str ReplayFixture :=
  if s = fileOf "first" "one" then .ok firstReading
  else if s = fileOf "second" "two" then .ok secondReading
  else .error (text "Invalid JSON")

/-- A directory of two recordings, and a file that is no fixture. -/
def notes : Directory where
  path := text "fixtures"
  entries := some [(text "second.json", .ok (fileOf "second" "two")),
    (text "notes.md", .ok (text "Two notes.")),
    (text "first.json", .ok (fileOf "first" "one"))]
  nodup := by
    intro found hfound
    cases hfound
    decide

def noteFiles : List (Str × ReplayFixture) :=
  [(text "second.json", secondReading), (text "first.json", firstReading)]

/-- A call for the note of a document. -/
def noteCall (content : Str) : ModelCall Str where
  task := text "Read the note."
  answerAs := note
  content := content

/-- A text between quotation marks. -/
def quoted (s : Str) : Str :=
  text "'" ++ s ++ text "'"

theorem holds_notes : Holds validateNotes notes noteFiles :=
  ⟨_, rfl, .cons ⟨rfl, rfl⟩ (.cons ⟨rfl, rfl⟩ .nil)⟩

/-- The note that is recorded first by name is answered from its file. -/
theorem replays_first : Replays validateNotes notes noteFiles (noteCall (text "first")) quoted :=
  (replays_iff (noteCall (text "first")) quoted holds_notes (by decide +kernel)).mpr
    (Or.inr (by decide))

/-- A document whose text holds a surrogate is in no file, and is not told to be in
    none. -/
theorem not_replays_surrogate :
    ¬ Replays validateNotes notes noteFiles (noteCall [0xD800]) quoted :=
  not_replays holds_notes (by decide +kernel) (by decide +kernel) (by decide)

end Example

end Replay

end ClaimTriage
