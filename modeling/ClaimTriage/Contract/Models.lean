import ClaimTriage.Theory.Columns

/-!
# The Wire Models

The models of the surrounding systems' contract: what crosses the boundary to
them, and what they answer with. A model's constraints are fields of its
structure, so a value that is outside the contract is not a value here.

Every model has the codec it is dumped and validated through. Extra fields are
forbidden throughout, which is what a record codec reads; and every time in
these models is one a store here read off a clock in UTC.

An amount keeps its spelling: `100`, `100.0` and `1E+2` are one amount to the
systems and three texts on the wire. `Amount.stored` is the one spelling a
column of two places answers with.

## Main definitions

* `Uuid`: A claim's, document's, party's or run's identifier.
* `ClaimStatus`, `PartyRole`: The contract's enumerations.
* `Amount`: An amount in euro within the contract's bounds.
* `ClaimSubmission`, `Claim`, `ClaimDocumentSubmission`, `ClaimDocument`,
  `ClaimPartySubmission`, `ClaimParty`, `Policy`: The models.
* `ErrorCode`, `ErrorResponse`: The shape of a failure.
* `Claim.wire`, `ClaimDocument.wire`, `ClaimParty.wire`: Their codecs.

## Theorems

* `Uuid.ofText_text`: An identifier is recovered from its text.
* `Claim.reads`, `ClaimDocument.reads`, `ClaimParty.reads`: Each is read back
  as it was written, once a form that keeps its texts has had it.
* `Amount.stored_stored`: A stored amount is stored as it is.
-/

namespace ClaimTriage

open Theory Text Numeral Calendar

/-! ### Identifiers -/

/-- An identifier of 128 bits. -/
@[ext]
structure Uuid where
  int : Nat
  valid : int < 2 ^ 128
  deriving DecidableEq

namespace Uuid

/-! The first numbers are identifiers. -/

theorem one_valid : 1 < 2 ^ 128 := by
  decide

theorem two_valid : 2 < 2 ^ 128 := by
  decide

theorem seven_valid : 7 < 2 ^ 128 := by
  decide

/-- The character between the groups of an identifier's text. -/
def hyphen : CodePoint := 0x2D

/-- The text of an identifier: 32 hexadecimal digits in groups of eight, four,
    four, four and twelve. -/
def text (id : Uuid) : Str :=
  let hex := fixed 16 32 id.int
  hex.take 8 ++ hyphen :: ((hex.drop 8).take 4 ++ hyphen :: ((hex.drop 12).take 4 ++
    hyphen :: ((hex.drop 16).take 4 ++ hyphen :: hex.drop 20)))

/-- The identifier a text is of. -/
def ofText (s : Str) : Option Uuid :=
  if h : value 16 (s.filter (· ≠ hyphen)) < 2 ^ 128 then
    if text ⟨_, h⟩ = s then some ⟨_, h⟩ else none
  else none

/-- A hexadecimal digit is no hyphen. -/
theorem digit_ne_hyphen (b w n : Nat) (hb : 0 < b) (hb16 : b ≤ 16) :
    ∀ c ∈ fixed b w n, c ≠ hyphen := by
  have hall : ∀ d < 16, digit d ≠ hyphen := by decide
  induction w generalizing n with
  | zero => exact fun c hc => absurd hc List.not_mem_nil
  | succ w ih =>
      intro c hc
      rcases List.mem_append.mp hc with hc | hc
      · exact ih _ c hc
      · rw [List.mem_singleton.mp hc]
        exact hall _ (Nat.lt_of_lt_of_le (Nat.mod_lt _ hb) hb16)

/-- Without its hyphens the text is the digits it groups. -/
theorem filter_text (id : Uuid) : id.text.filter (· ≠ hyphen) = fixed 16 32 id.int := by
  have hne := digit_ne_hyphen 16 32 id.int (by decide) (by decide)
  unfold text
  generalize fixed 16 32 id.int = hex at hne
  have hdrop : ∀ n, (hex.drop n).filter (· ≠ hyphen) = hex.drop n := fun n =>
    List.filter_eq_self.mpr fun c hc => decide_eq_true (hne c (List.mem_of_mem_drop hc))
  have htake : ∀ n m, ((hex.drop n).take m).filter (· ≠ hyphen) = (hex.drop n).take m :=
    fun n m => List.filter_eq_self.mpr fun c hc =>
      decide_eq_true (hne c (List.mem_of_mem_drop (List.mem_of_mem_take hc)))
  have hhyphen : ∀ rest : Str, (hyphen :: rest).filter (· ≠ hyphen) = rest.filter (· ≠ hyphen) :=
    fun rest => List.filter_cons_of_neg (by simp)
  have hjoin : ∀ n m, (hex.drop n).take m ++ hex.drop (n + m) = hex.drop n := by
    intro n m
    rw [← List.drop_drop, List.take_append_drop]
  have hfirst := htake 0 8
  rw [List.drop_zero] at hfirst
  simp only [List.filter_append, hhyphen, hfirst, htake, hdrop]
  rw [hjoin 16 4, hjoin 12 4, hjoin 8 4, List.take_append_drop]

theorem value_text (id : Uuid) : value 16 (id.text.filter (· ≠ hyphen)) = id.int := by
  have hbound : id.int < 16 ^ 32 := by
    have hvalid := id.valid
    omega
  rw [filter_text]
  exact value_fixed (by decide) (by decide) 32 id.int hbound

/-- A text is an identifier's if its digits are the identifier's and it groups
    them as the identifier does. -/
theorem ofText_eq {id : Uuid} {s : Str} (hvalue : value 16 (s.filter (· ≠ hyphen)) = id.int)
    (htext : id.text = s) : ofText s = some id := by
  have hlt : value 16 (s.filter (· ≠ hyphen)) < 2 ^ 128 := by
    rw [hvalue]
    exact id.valid
  have hid : (⟨_, hlt⟩ : Uuid) = id := Uuid.ext hvalue
  rw [ofText, dif_pos hlt, hid, if_pos htext]

/-- An identifier is recovered from its text. -/
theorem ofText_text (id : Uuid) : ofText id.text = some id :=
  ofText_eq (value_text id) rfl

theorem text_printable (id : Uuid) : Printable id.text := by
  have hhex : Printable (fixed 16 32 id.int) := printable_fixed (by decide) (by decide) 32 id.int
  have hhyphen : 0x20 ≤ hyphen.val ∧ hyphen.val < 0x7F := by decide
  intro c hc
  by_cases h : c = hyphen
  · rw [h]
    exact hhyphen
  · have hmem : c ∈ id.text.filter (· ≠ hyphen) :=
      List.mem_filter.mpr ⟨hc, decide_eq_true h⟩
    rw [filter_text] at hmem
    exact hhex c hmem

/-- An identifier as its text. -/
def codec : Codec Uuid Str where
  encode := text
  decode := ofText
  decode_encode := ofText_text

end Uuid

/-! ### Enumerations -/

/-- Where the claim stands as the surrounding systems see it. -/
inductive ClaimStatus where
  | received
  | triaged
  deriving DecidableEq

/-- The name a status goes by on the wire. -/
def ClaimStatus.value : ClaimStatus → Str
  | received => Text.text "received"
  | triaged => Text.text "triaged"

/-- A status as its name. -/
def ClaimStatus.codec : Codec ClaimStatus Str :=
  Codec.named [received, triaged] ClaimStatus.value (by intro a; cases a <;> decide)
    (by intro a b; cases a <;> cases b <;> decide)

/-- What a party is to the claim. -/
inductive PartyRole where
  | policyholder
  | claimant
  | driver
  | witness
  | other
  deriving DecidableEq

/-- The name a role goes by on the wire. -/
def PartyRole.value : PartyRole → Str
  | policyholder => Text.text "policyholder"
  | claimant => Text.text "claimant"
  | driver => Text.text "driver"
  | witness => Text.text "witness"
  | other => Text.text "other"

/-- A role as its name. -/
def PartyRole.codec : Codec PartyRole Str :=
  Codec.named [policyholder, claimant, driver, witness, other] PartyRole.value
    (by intro a; cases a <;> decide) (by intro a b; cases a <;> cases b <;> decide)

/-! ### Amounts -/

/-- An amount in euro within the contract's bounds: above zero, at most two
    decimal places that are not zeros, at most twelve digits with those two. -/
@[ext]
structure Amount where
  value : Decimal
  positive : 0 < value.units 2
  places : value.Fits 2
  digits : value.units 2 < 10 ^ 12
  deriving DecidableEq

namespace Amount

/-- The number as an amount, if it is within the contract's bounds. -/
def ofDecimal (d : Decimal) : Option Amount :=
  if h : (0 < d.units 2 ∧ d.Fits 2) ∧ d.units 2 < 10 ^ 12 then some ⟨d, h.1.1, h.1.2, h.2⟩
  else none

/-- An amount as its text. -/
def codec : Codec Amount Str where
  encode a := a.value.text
  decode s := ofDecimal (Decimal.ofText s)
  decode_encode a := by
    rw [Decimal.ofText_text]
    exact dif_pos ⟨⟨a.positive, a.places⟩, a.digits⟩

/-- The amount as a column of two decimal places answers with it. -/
def stored (a : Amount) : Amount where
  value := a.value.quantized 2
  positive := by
    rw [Decimal.units_quantized]
    exact a.positive
  places := Decimal.fits_quantized 2 a.value
  digits := by
    rw [Decimal.units_quantized]
    exact a.digits

/-- A stored amount is stored as it is. -/
theorem stored_stored (a : Amount) : a.stored.stored = a.stored :=
  Amount.ext (Decimal.quantized_quantized 2 a.value)

/-- Only an amount spelled with two decimal places is stored as it is. -/
theorem stored_eq_self_iff {a : Amount} : a.stored = a ↔ a.value.exponent = -2 := by
  rw [Amount.ext_iff]
  exact Decimal.quantized_eq_self_iff

end Amount

/-! ### Claims -/

/-- A policy as the system of record holds it. -/
structure Policy where
  policyNumber : Str
  productFamily : Str
  validFrom : Date
  deriving DecidableEq

/-- A claim as the surrounding systems accept it. -/
@[ext]
structure ClaimSubmission where
  policyNumber : Str
  incidentDate : Date
  claimAmountEur : Amount
  policyNumberValid : 1 ≤ policyNumber.length ∧ policyNumber.length ≤ 64
  deriving DecidableEq

/-- One status the claim has held, and when it started holding it. -/
@[ext]
structure ClaimStatusTransition where
  status : ClaimStatus
  recordedAt : Moment
  deriving DecidableEq

/-- A stored claim, the record the systems return for every read. -/
@[ext]
structure Claim where
  claimId : Uuid
  policyNumber : Str
  incidentDate : Date
  claimAmountEur : Amount
  status : ClaimStatus
  statusHistory : List ClaimStatusTransition
  statusHistoryValid : statusHistory ≠ []
  deriving DecidableEq

/-- A document the pipeline read out of a claim, as it attaches it. -/
@[ext]
structure ClaimDocumentSubmission where
  documentType : Str
  filename : Str
  documentTypeValid : 1 ≤ documentType.length ∧ documentType.length ≤ 64
  filenameValid : 1 ≤ filename.length ∧ filename.length ≤ 255
  deriving DecidableEq

/-- A document the surrounding systems hold against a claim. -/
@[ext]
structure ClaimDocument where
  documentId : Uuid
  claimId : Uuid
  documentType : Str
  filename : Str
  attachedAt : Moment
  deriving DecidableEq

/-- A party the pipeline identified, as it records it. -/
structure ClaimPartySubmission where
  role : PartyRole
  deriving DecidableEq

/-- A party the surrounding systems hold against a claim. -/
@[ext]
structure ClaimParty where
  partyId : Uuid
  claimId : Uuid
  role : PartyRole
  recordedAt : Moment
  deriving DecidableEq

/-! ### Failures -/

/-- What the systems refused a call for. -/
inductive ErrorCode where
  | invalidPayload
  | claimNotFound
  | policyNotFound
  | idempotencyKeyReuse
  | serviceUnavailable
  deriving DecidableEq

/-- The shape of every failure the systems answer with. -/
structure ErrorResponse where
  code : ErrorCode
  detail : Str
  deriving DecidableEq

/-! ### How the models are written -/

/-- The fields of a submission. -/
def ClaimSubmission.fields : List Str :=
  [Text.text "policy_number", Text.text "incident_date", Text.text "claim_amount_eur"]

/-- A submission as it is dumped. -/
def ClaimSubmission.wire : Codec ClaimSubmission Json :=
  (Codec.record fields
    (Codec.plain.str.cons (Codec.date.str.cons (Amount.codec.str.cons Codec.nil)))
    (by decide) (fun _ => rfl)).comp
    { encode := fun s => (s.policyNumber, s.incidentDate, s.claimAmountEur, ())
      decode := fun (number, day, amount, ()) =>
        if h : 1 ≤ number.length ∧ number.length ≤ 64 then some ⟨number, day, amount, h⟩ else none
      decode_encode := fun s => dif_pos s.policyNumberValid }

/-- The fields of a transition. -/
def ClaimStatusTransition.fields : List Str :=
  [Text.text "status", Text.text "recorded_at"]

/-- A transition as it is dumped. -/
def ClaimStatusTransition.wire : Codec ClaimStatusTransition Json :=
  (Codec.record fields (ClaimStatus.codec.str.cons (Codec.moment.str.cons Codec.nil))
    (by decide) (fun _ => rfl)).comp
    { encode := fun t => (t.status, t.recordedAt, ())
      decode := fun (status, moment, ()) => some ⟨status, moment⟩
      decode_encode := fun _ => rfl }

/-- The fields of a claim. -/
def Claim.fields : List Str :=
  [Text.text "claim_id", Text.text "policy_number", Text.text "incident_date",
    Text.text "claim_amount_eur", Text.text "status", Text.text "status_history"]

/-- A claim as it is dumped. -/
def Claim.wire : Codec Claim Json :=
  (Codec.record fields
    (Uuid.codec.str.cons (Codec.plain.str.cons (Codec.date.str.cons (Amount.codec.str.cons
      (ClaimStatus.codec.str.cons (ClaimStatusTransition.wire.array.cons Codec.nil))))))
    (by decide) (fun _ => rfl)).comp
    { encode := fun c => (c.claimId, c.policyNumber, c.incidentDate, c.claimAmountEur,
        c.status, c.statusHistory, ())
      decode := fun (id, number, day, amount, status, history, ()) =>
        if h : history ≠ [] then some ⟨id, number, day, amount, status, history, h⟩ else none
      decode_encode := fun c => dif_pos c.statusHistoryValid }

/-- The fields of a document's submission. -/
def ClaimDocumentSubmission.fields : List Str :=
  [Text.text "document_type", Text.text "filename"]

/-- A document's submission as it is dumped. -/
def ClaimDocumentSubmission.wire : Codec ClaimDocumentSubmission Json :=
  (Codec.record fields (Codec.plain.str.cons (Codec.plain.str.cons Codec.nil))
    (by decide) (fun _ => rfl)).comp
    { encode := fun d => (d.documentType, d.filename, ())
      decode := fun (kind, name, ()) =>
        if h : (1 ≤ kind.length ∧ kind.length ≤ 64) ∧ (1 ≤ name.length ∧ name.length ≤ 255) then
          some ⟨kind, name, h.1, h.2⟩
        else none
      decode_encode := fun d => dif_pos ⟨d.documentTypeValid, d.filenameValid⟩ }

/-- The fields of a document. -/
def ClaimDocument.fields : List Str :=
  [Text.text "document_id", Text.text "claim_id", Text.text "document_type",
    Text.text "filename", Text.text "attached_at"]

/-- A document as it is dumped. -/
def ClaimDocument.wire : Codec ClaimDocument Json :=
  (Codec.record fields
    (Uuid.codec.str.cons (Uuid.codec.str.cons (Codec.plain.str.cons (Codec.plain.str.cons
      (Codec.moment.str.cons Codec.nil)))))
    (by decide) (fun _ => rfl)).comp
    { encode := fun d => (d.documentId, d.claimId, d.documentType, d.filename, d.attachedAt, ())
      decode := fun (id, claim, kind, name, moment, ()) => some ⟨id, claim, kind, name, moment⟩
      decode_encode := fun _ => rfl }

/-- The one field of a party's submission. -/
def ClaimPartySubmission.fields : List Str :=
  [Text.text "role"]

/-- A party's submission as it is dumped. -/
def ClaimPartySubmission.wire : Codec ClaimPartySubmission Json :=
  (Codec.record fields (PartyRole.codec.str.cons Codec.nil) (by decide) (fun _ => rfl)).comp
    { encode := fun p => (p.role, ())
      decode := fun (role, ()) => some ⟨role⟩
      decode_encode := fun _ => rfl }

/-- The fields of a party. -/
def ClaimParty.fields : List Str :=
  [Text.text "party_id", Text.text "claim_id", Text.text "role", Text.text "recorded_at"]

/-- A party as it is dumped. -/
def ClaimParty.wire : Codec ClaimParty Json :=
  (Codec.record fields
    (Uuid.codec.str.cons (Uuid.codec.str.cons (PartyRole.codec.str.cons
      (Codec.moment.str.cons Codec.nil))))
    (by decide) (fun _ => rfl)).comp
    { encode := fun p => (p.partyId, p.claimId, p.role, p.recordedAt, ())
      decode := fun (id, claim, role, moment, ()) => some ⟨id, claim, role, moment⟩
      decode_encode := fun _ => rfl }

/-! ### What a form makes of them -/

section Reads

variable {F : Form}

theorem Uuid.reads (id : Uuid) : Reads F Uuid.codec.str id id :=
  reads_of_printable _ id.text_printable

theorem reads_date (d : Date) : Reads F Codec.date.str d d :=
  reads_of_printable _ d.isoformat_printable

theorem reads_moment (m : Moment) : Reads F Codec.moment.str m m :=
  reads_of_printable _ m.wire_printable

theorem Amount.reads (a : Amount) : Reads F Amount.codec.str a a :=
  reads_of_printable _ a.value.printable_text

theorem ClaimStatus.reads (s : ClaimStatus) : Reads F ClaimStatus.codec.str s s :=
  reads_of_printable _ (by cases s <;> decide)

theorem PartyRole.reads (r : PartyRole) : Reads F PartyRole.codec.str r r :=
  reads_of_printable _ (by cases r <;> decide)

theorem ClaimStatusTransition.reads (t : ClaimStatusTransition) :
    Reads F ClaimStatusTransition.wire t t :=
  reads_comp (reads_record _ _ (by decide)
    (readsAll_cons t.status.reads (readsAll_cons (reads_moment t.recordedAt) readsAll_nil))) rfl

/-- A history is read back as it was written. -/
theorem reads_history (history : List ClaimStatusTransition) :
    Reads F ClaimStatusTransition.wire.array history history := by
  refine reads_array ?_
  induction history with
  | nil => exact List.Forall₂.nil
  | cons t rest ih => exact List.Forall₂.cons t.reads ih

/-- A claim is read back as it was written if its policy number is. -/
theorem Claim.reads {c : Claim} (h : F.text c.policyNumber = some c.policyNumber) :
    Reads F Claim.wire c c :=
  reads_comp (reads_record _ _ (by decide)
    (readsAll_cons c.claimId.reads (readsAll_cons (reads_plain h)
      (readsAll_cons (reads_date c.incidentDate) (readsAll_cons c.claimAmountEur.reads
        (readsAll_cons c.status.reads (readsAll_cons (reads_history c.statusHistory)
          readsAll_nil))))))) (dif_pos c.statusHistoryValid)

/-- A document is read back as it was written if its two texts are. -/
theorem ClaimDocument.reads {d : ClaimDocument}
    (htype : F.text d.documentType = some d.documentType)
    (hname : F.text d.filename = some d.filename) : Reads F ClaimDocument.wire d d :=
  reads_comp (reads_record _ _ (by decide)
    (readsAll_cons d.documentId.reads (readsAll_cons d.claimId.reads
      (readsAll_cons (reads_plain htype) (readsAll_cons (reads_plain hname)
        (readsAll_cons (reads_moment d.attachedAt) readsAll_nil)))))) rfl

/-- A party is read back as it was written. -/
theorem ClaimParty.reads (p : ClaimParty) : Reads F ClaimParty.wire p p :=
  reads_comp (reads_record _ _ (by decide)
    (readsAll_cons p.partyId.reads (readsAll_cons p.claimId.reads
      (readsAll_cons p.role.reads (readsAll_cons (reads_moment p.recordedAt) readsAll_nil))))) rfl

end Reads

end ClaimTriage
