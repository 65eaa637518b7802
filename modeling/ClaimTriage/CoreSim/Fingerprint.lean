import ClaimTriage.Boundary
import ClaimTriage.CoreSim.Writes
import ClaimTriage.Theory.Amount
import Mathlib.Tactic.NormNum

/-!
# What a Fingerprint Identifies

When two writes have one fingerprint, and when they are one request.

A fingerprint is the digest of a text, and the text is the operation's name and
the request's fields as sorted JSON. Every field is a string, so the text
determines the operation and the strings (`canonical_inj`), and these determine
the write with its arguments as they are spelled.

Two submissions are one request if their amounts are one number, however it is
spelled, and the text keeps the spelling. So a write that is sent again with
another spelling is another write to its key, and that is all a fingerprint
gets wrong.

## Main definitions

* `Call.operation`, `Call.names`, `Call.texts`: What the text is made of.
* `canonical`: The text a fingerprint is the digest of.
* `Call.Admitted`: The texts are ones the models' fields take.
* `Call.Same`: Two writes are one request.
* `Identified`: A fingerprint tells two writes apart exactly if they are not one
  request.

## Theorems

* `canonical_inj`: The text determines the write.
* `identified_iff`: A fingerprint identifies requests unless equal amounts are
  spelled differently.
-/

namespace ClaimTriage

open Theory Text Calendar

open Boundary (Encodable noPair_of_encodable)

namespace CoreSim

namespace Call

/-- The name a fingerprint has for the operation. -/
def operation : Call → Str
  | create _ => text "create_claim"
  | recordStatus _ _ => text "record_claim_status"
  | attachDocument _ _ => text "attach_claim_document"
  | recordParty _ _ => text "record_claim_party"

/-- The fields of the request. -/
def names : Call → List Str
  | create _ => ClaimSubmission.fields
  | recordStatus _ _ => [text "claim_id", text "status"]
  | attachDocument _ _ => text "claim_id" :: ClaimDocumentSubmission.fields
  | recordParty _ _ => text "claim_id" :: ClaimPartySubmission.fields

/-- What stands in the fields. -/
def texts : Call → List Str
  | create s => [s.policyNumber, s.incidentDate.isoformat, s.claimAmountEur.value.text]
  | recordStatus id status => [id.text, status.value]
  | attachDocument id d => [id.text, d.documentType, d.filename]
  | recordParty id p => [id.text, p.role.value]

/-- The call's texts hold no surrogates, which no bounded field of a model
    takes. -/
def Admitted (call : Call) : Prop :=
  ∀ s ∈ call.texts, Encodable s

instance (call : Call) : Decidable call.Admitted :=
  List.decidableBAll _ call.texts

/-- Two writes are one request: one operation with equal arguments, amounts
    compared as numbers. -/
def Same : Call → Call → Prop
  | create s, create t => s.policyNumber = t.policyNumber ∧ s.incidentDate = t.incidentDate ∧
      s.claimAmountEur.value.number = t.claimAmountEur.value.number
  | recordStatus id status, recordStatus id' status' => id = id' ∧ status = status'
  | attachDocument id d, attachDocument id' d' => id = id' ∧ d = d'
  | recordParty id p, recordParty id' p' => id = id' ∧ p = p'
  | _, _ => False

/-- The power of ten the write's amount is spelled with. -/
def exponent : Call → Option Int
  | create s => some s.claimAmountEur.value.exponent
  | _ => none

theorem same_refl (call : Call) : call.Same call := by
  cases call <;> simp only [Same, and_self]

/-- One request whose amount is spelled alike is one write. -/
theorem Same.eq {a b : Call} (h : a.Same b) (hexponent : a.exponent = b.exponent) : a = b := by
  cases a <;> cases b <;> simp only [Same] at h
  case create s t =>
    rcases h with ⟨hnumber, hday, hamount⟩
    have hvalue := Decimal.eq_of_number hamount (Option.some.inj hexponent)
    rw [ClaimSubmission.ext hnumber hday (Amount.ext hvalue)]
  all_goals rw [h.1, h.2]

theorem length_names (call : Call) : call.names.length = call.texts.length := by
  cases call <;>
    simp only [names, texts, ClaimSubmission.fields, ClaimDocumentSubmission.fields,
      ClaimPartySubmission.fields, List.length_cons, List.length_nil]

theorem nodup_names (call : Call) : call.names.Nodup := by
  cases call
  case create => exact (by decide : ClaimSubmission.fields.Nodup)
  case recordStatus => exact (by decide : [text "claim_id", text "status"].Nodup)
  case attachDocument =>
    exact (by decide : (text "claim_id" :: ClaimDocumentSubmission.fields).Nodup)
  case recordParty => exact (by decide : (text "claim_id" :: ClaimPartySubmission.fields).Nodup)

theorem printable_names (call : Call) : ∀ name ∈ call.names, Printable name := by
  cases call
  case create => exact (by decide : ∀ name ∈ ClaimSubmission.fields, Printable name)
  case recordStatus => exact (by decide : ∀ name ∈ [text "claim_id", text "status"], Printable name)
  case attachDocument =>
    exact (by decide :
      ∀ name ∈ text "claim_id" :: ClaimDocumentSubmission.fields, Printable name)
  case recordParty =>
    exact (by decide : ∀ name ∈ text "claim_id" :: ClaimPartySubmission.fields, Printable name)

theorem printable_operation (call : Call) : Printable call.operation := by
  cases call
  case create => exact (by decide : Printable (text "create_claim"))
  case recordStatus => exact (by decide : Printable (text "record_claim_status"))
  case attachDocument => exact (by decide : Printable (text "attach_claim_document"))
  case recordParty => exact (by decide : Printable (text "record_claim_party"))

/-- The operations have names of their own. -/
theorem operation_cases {a b : Call} (h : a.operation = b.operation) :
    (∃ s t, a = create s ∧ b = create t) ∨
      (∃ id status id' status', a = recordStatus id status ∧ b = recordStatus id' status') ∨
      (∃ id d id' d', a = attachDocument id d ∧ b = attachDocument id' d') ∨
      ∃ id p id' p', a = recordParty id p ∧ b = recordParty id' p' := by
  have hne : text "create_claim" ≠ text "record_claim_status" ∧
      text "create_claim" ≠ text "attach_claim_document" ∧
      text "create_claim" ≠ text "record_claim_party" ∧
      text "record_claim_status" ≠ text "attach_claim_document" ∧
      text "record_claim_status" ≠ text "record_claim_party" ∧
      text "attach_claim_document" ≠ text "record_claim_party" := by decide
  rcases hne with ⟨hcs, hcd, hcp, hsd, hsp, hdp⟩
  cases a <;> cases b
  case create.create s t => exact Or.inl ⟨s, t, rfl, rfl⟩
  case recordStatus.recordStatus id status id' status' =>
    exact Or.inr (Or.inl ⟨id, status, id', status', rfl, rfl⟩)
  case attachDocument.attachDocument id d id' d' =>
    exact Or.inr (Or.inr (Or.inl ⟨id, d, id', d', rfl, rfl⟩))
  case recordParty.recordParty id p id' p' =>
    exact Or.inr (Or.inr (Or.inr ⟨id, p, id', p', rfl, rfl⟩))
  -- Calls of two kinds have operations of two names.
  all_goals
    simp only [operation, hcs, hcd, hcp, hsd, hsp, hdp, hcs.symm, hcd.symm, hcp.symm, hsd.symm,
      hsp.symm, hdp.symm] at h

/-- An operation has its fields. -/
theorem names_eq_of_operation {a b : Call} (h : a.operation = b.operation) : a.names = b.names := by
  rcases operation_cases h with ⟨_, _, rfl, rfl⟩ | ⟨_, _, _, _, rfl, rfl⟩ |
    ⟨_, _, _, _, rfl, rfl⟩ | ⟨_, _, _, _, rfl, rfl⟩ <;> rfl

/-- The operation and the texts are all there is to a write. -/
theorem eq_of_texts {a b : Call} (hoperation : a.operation = b.operation)
    (h : a.texts = b.texts) : a = b := by
  rcases operation_cases hoperation with ⟨s, t, rfl, rfl⟩ | ⟨id, status, id', status', rfl, rfl⟩ |
    ⟨id, d, id', d', rfl, rfl⟩ | ⟨id, p, id', p', rfl, rfl⟩
  all_goals simp only [texts, List.cons.injEq, and_true] at h
  · have hday : s.incidentDate = t.incidentDate := Codec.date.encode_inj h.2.1
    have hamount : s.claimAmountEur = t.claimAmountEur := Amount.codec.encode_inj h.2.2
    rw [ClaimSubmission.ext h.1 hday hamount]
  · have hid : id = id' := Uuid.codec.encode_inj h.1
    have hstatus : status = status' := ClaimStatus.codec.encode_inj h.2
    rw [hid, hstatus]
  · have hid : id = id' := Uuid.codec.encode_inj h.1
    rw [hid, ClaimDocumentSubmission.ext h.2.1 h.2.2]
  · have hid : id = id' := Uuid.codec.encode_inj h.1
    have hrole : p.role = p'.role := PartyRole.codec.encode_inj h.2
    cases p
    cases p'
    cases hrole
    rw [hid]

end Call

/-- The text a write's fingerprint is the digest of. -/
def canonical (call : Call) : Str :=
  (Json.obj [(text "operation", .str call.operation),
    (text "request", .obj (call.names.zip (call.texts.map .str)))]).sortKeys.dumps true

/-- A fingerprint is the digest of the write's text. -/
theorem fingerprint_eq (call : Call) :
    fingerprint call = Sha256.hexdigest (encode (canonical call)) := by
  cases call <;> rfl

theorem noPair_request {call : Call} (h : call.Admitted) :
    (Json.obj [(text "operation", .str call.operation),
      (text "request", .obj (call.names.zip (call.texts.map .str)))]).NoPair := by
  have hoperation : NoPair (text "operation") := by decide
  have hrequest : NoPair (text "request") := by decide
  have hfields := @Json.noPairFields_zip_str call.names _
    (fun name hname => noPair_of_printable (call.printable_names name hname))
    fun s hs => noPair_of_encodable (h s hs)
  exact ⟨hoperation, noPair_of_printable call.printable_operation, hrequest, hfields, trivial⟩

/-- The text determines the write, its arguments as they are spelled. -/
theorem canonical_inj {a b : Call} (ha : a.Admitted) (hb : b.Admitted)
    (h : canonical a = canonical b) : a = b := by
  have hsorted := Json.dumps_inj true (Json.noPair_sortKeys _ (noPair_request ha))
    (Json.noPair_sortKeys _ (noPair_request hb)) h
  -- The keys are sorted on both levels; under the same keys the values are the same.
  simp only [Json.sortKeys, Json.sortValues, Json.obj.injEq, Json.sortValues_zip_str] at hsorted
  have hvalues := @Json.values_eq_of_sortFields_eq [text "operation", text "request"]
    [_, _] [_, _] (by decide) rfl rfl hsorted
  simp only [List.cons.injEq, Json.str.injEq, Json.obj.injEq, and_true] at hvalues
  rcases hvalues with ⟨hoperation, hfields⟩
  -- The fields' names follow from the operation, so only their values are compared.
  rw [Call.names_eq_of_operation hoperation] at hfields
  have hnames := Call.names_eq_of_operation hoperation
  have htexts := Json.values_eq_of_sortFields_eq b.nodup_names
    (by rw [← hnames, a.length_names, List.length_map]) (by rw [b.length_names, List.length_map])
    hfields
  exact Call.eq_of_texts hoperation
    (List.map_injective_iff.mpr (fun _ _ => Json.str.inj) htexts)

/-- The digests of two texts that are not one text differ, so writes have one
    fingerprint exactly if they are one write, arguments as they are spelled. -/
theorem fingerprint_eq_iff {a b : Call} (ha : a.Admitted) (hb : b.Admitted)
    (hcollision : fingerprint a = fingerprint b → canonical a = canonical b) :
    fingerprint a = fingerprint b ↔ a = b :=
  ⟨fun h => canonical_inj ha hb (hcollision h), fun h => h ▸ rfl⟩

/-- The fingerprints of two writes are one exactly if the writes are one
    request. -/
def Identified (a b : Call) : Prop :=
  fingerprint a = fingerprint b ↔ a.Same b

/-- Where the texts of two writes do not collide, fingerprints identify them as
    requests exactly if one request's amount is not spelled in two ways. -/
theorem identified_iff {a b : Call} (ha : a.Admitted) (hb : b.Admitted)
    (hcollision : fingerprint a = fingerprint b → canonical a = canonical b) :
    Identified a b ↔ (a.Same b → a.exponent = b.exponent) := by
  have hprint := fingerprint_eq_iff ha hb hcollision
  constructor
  · intro hidentified hsame
    rw [hprint.mp (hidentified.mpr hsame)]
  · intro hspelled
    refine ⟨fun h => ?_, fun hsame => hprint.mpr (hsame.eq (hspelled hsame))⟩
    rw [hprint.mp h]
    exact b.same_refl

/-- A submission of the same amount, spelled with a decimal place. -/
def respelled : ClaimSubmission :=
  { submitted with claimAmountEur := ⟨⟨1000, -1⟩, by decide, by decide, by decide⟩ }

theorem fingerprint_respelled_ne :
    fingerprint (.create submitted) ≠ fingerprint (.create respelled) := by
  decide +kernel

/-- Two reports on one claim are told apart by the status they report. -/
theorem identified_reports :
    Identified (.recordStatus ⟨1, by decide⟩ .received) (.recordStatus ⟨1, by decide⟩ .triaged) :=
  (identified_iff (by decide +kernel) (by decide +kernel) fun h =>
    absurd h (by decide +kernel)).mpr fun _ => rfl

/-- An amount of `100` that is sent again as `100.0` is another request. -/
theorem not_identified_respelled : ¬ Identified (.create submitted) (.create respelled) := by
  intro h
  refine fingerprint_respelled_ne (h.mpr ⟨rfl, rfl, ?_⟩)
  simp only [submitted, respelled, Decimal.number]
  norm_num

end CoreSim

end ClaimTriage
