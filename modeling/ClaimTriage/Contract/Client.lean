import ClaimTriage.CoreSim.App
import ClaimTriage.Theory.Columns
import ClaimTriage.Theory.Uri
import Mathlib.Data.List.DropRight

/-!
# The Contract's Client

A policy looked up over the wire.

The client quotes the number into the path of its request, the library that
sends it removes the path's dot segments, and the systems read the path and
match it against their routes. A number arrives if these undo each other. The
ones that do not come through are a number with a slash, which is quoted and is
a separator again once the path is read; a number that is a dot segment, which
quoting leaves alone; and one that has no UTF-8. None of them is taken for
something else that the systems answer: the path starts as a policy's does.

## Main definitions

* `Operation`, `routes`: What the systems serve, and where.
* `routed`: What a path is matched with.
* `policyPath`, `addressed`: The path a number is asked for at, and what the
  systems make of it.
* `readPolicy`: What the client's call comes to.
* `Arrives`, `Answers`: The number reaches its route, and the call answers what
  the systems hold.

## Theorems

* `routed_policies`: What a path that starts as a policy's is matched with.
* `addressed_policy`: No number is taken for something else.
* `arrives_iff`: Which numbers arrive.
* `answers_iff`: Which numbers are answered.
* `reads_iff`: Which numbers can be looked up.
-/

namespace ClaimTriage

open Theory Text Uri

namespace CoreSim

/-! ### What the systems serve -/

/-- The operations the systems serve, and the descriptions of them that the
    framework serves itself. -/
inductive Operation where
  | openapi
  | docs
  | oauth2Redirect
  | redoc
  | readReadiness
  | readPolicy
  | createClaim
  | readClaim
  | recordClaimStatus
  | attachClaimDocument
  | readClaimParties
  | recordClaimParty
  deriving DecidableEq

/-- The methods the systems serve something by. -/
inductive Method where
  | get
  | post
  deriving DecidableEq

/-- The templates of the paths, in the order they are tried. -/
def routes : List (Operation × Method × List Part) :=
  [(.openapi, .get, [.lit (text "openapi.json")]),
    (.docs, .get, [.lit (text "docs")]),
    (.oauth2Redirect, .get, [.lit (text "docs"), .lit (text "oauth2-redirect")]),
    (.redoc, .get, [.lit (text "redoc")]),
    (.readReadiness, .get, [.lit (text "healthz")]),
    (.readPolicy, .get, [.lit (text "policies"), .hole]),
    (.createClaim, .post, [.lit (text "claims")]),
    (.readClaim, .get, [.lit (text "claims"), .hole]),
    (.recordClaimStatus, .post, [.lit (text "claims"), .hole, .lit (text "status")]),
    (.attachClaimDocument, .post, [.lit (text "claims"), .hole, .lit (text "documents")]),
    (.readClaimParties, .get, [.lit (text "claims"), .hole, .lit (text "parties")]),
    (.recordClaimParty, .post, [.lit (text "claims"), .hole, .lit (text "parties")])]

/-- What a route's holes take of a path. -/
def captured (path : Str) (template : List Part) : Option (List Str) :=
  match path with
  | [] => none
  | root :: path => if root = slash then Part.matchAll template (segments path) else none

/-- The path with a slash at its end where it has none, and without where it
    has. -/
def toggled (path : Str) : Str :=
  if path.getLast? = some slash then path.rdropWhile (· = slash) else path ++ [slash]

/-- What a request is matched with: the first route of its method and path, or
    the status the framework answers itself with. -/
def routed (method : Method) (path : Str) : Except Nat (Operation × List Str) :=
  let found := routes.findSome? fun (operation, served, template) =>
    if served = method then (captured path template).map (operation, ·) else none
  match found with
  | some matched => .ok matched
  | none =>
    if routes.any fun (_, _, template) => (captured path template).isSome then .error 405
    else if path ≠ [slash] ∧
      routes.any fun (_, _, template) => (captured (toggled path) template).isSome then .error 307
    else .error 404

/-- The detail the framework answers a status with. -/
def frameworkDetail (statusCode : Nat) : Str :=
  if statusCode = 404 then text "Not Found"
  else if statusCode = 405 then text "Method Not Allowed"
  else []

end CoreSim

namespace Client

open CoreSim (Operation Method Reply Condition routed)

/-! ### What the client sends -/

/-- The path a policy is asked for at, its number quoted. -/
def policyPath (policyNumber : Str) : Option Str :=
  (quote policyNumber).map (text "/policies/" ++ ·)

/-- What the systems make of the path a policy is asked for at: the library that
    sends it removes its dot segments, and the server reads it before it is
    matched. Nothing arrives where the path cannot be written. -/
def addressed (policyNumber : Str) : Option (Except Nat (Operation × List Str)) := do
  let path ← policyPath policyNumber
  let read ← unquote (removeDotSegments path)
  return routed .get read

/-- Why a call came to nothing: its path could not be written, the systems
    refused it and said why, or what they answered is not in the contract. -/
inductive Failure where
  | unencodable
  | refusal (statusCode : Nat) (error : ErrorResponse)
  | unexpectedResponse (statusCode : Nat)
  deriving DecidableEq

/-- The bounds the route declares on the number of a policy. -/
def arrival (policyNumber : Str) : CoreSim.Arrival :=
  if policyNumber.length < 1 then
    .rejected (text "path.policy_number: String should have at least 1 character")
  else if 64 < policyNumber.length then
    .rejected (text "path.policy_number: String should have at most 64 characters")
  else .handed (.readPolicy policyNumber)

/-- What a request is answered with, given what the other operations answer. -/
def served (others : Operation → List Str → Reply) (db : Condition) :
    Except Nat (Operation × List Str) → Reply
  | .ok (.readPolicy, [policyNumber]) => CoreSim.serve (arrival policyNumber) db
  | .ok (operation, arguments) => others operation arguments
  | .error statusCode => .unread statusCode (CoreSim.frameworkDetail statusCode)

/-- What the client makes of an answer: the policy, the refusal the contract
    names, or a failure that says the answer is another. -/
def answered (expected : Nat) : Reply → Except Failure Policy
  | .answered statusCode (.policy policy) =>
    if statusCode = expected then .ok policy else .error (.unexpectedResponse statusCode)
  | .answered statusCode _ => .error (.unexpectedResponse statusCode)
  | .failed statusCode error =>
    if statusCode = expected then .error (.unexpectedResponse statusCode)
    else .error (.refusal statusCode error)
  | .unread statusCode _ => .error (.unexpectedResponse statusCode)
  | .crashed => .error (.unexpectedResponse 500)

/-- A policy looked up. -/
def readPolicy (others : Operation → List Str → Reply) (db : Condition) (policyNumber : Str) :
    Except Failure Policy :=
  match addressed policyNumber with
  | none => .error .unencodable
  | some matched => answered 200 (served others db matched)

/-! ### What arrives -/

/-- The number reaches the route policies are read at, as it is. -/
def Arrives (policyNumber : Str) : Prop :=
  addressed policyNumber = some (.ok (.readPolicy, [policyNumber]))

/-- The call returns the policy the systems hold under the number, or raises
    that there is none where they hold none. -/
def Answers (others : Operation → List Str → Reply) (db : Condition) (policyNumber : Str) : Prop :=
  match (db.tables .select).policies policyNumber with
  | some policy => readPolicy others db policyNumber = .ok policy
  | none => ∃ detail, readPolicy others db policyNumber =
      .error (.refusal 404 ⟨.policyNotFound, detail⟩)

/-- A number with a segment of its own in a path. -/
def Segment (policyNumber : Str) : Prop :=
  slash ∉ policyNumber ∧ policyNumber ≠ dot ∧ policyNumber ≠ dots

instance (policyNumber : Str) : Decidable (Segment policyNumber) :=
  inferInstanceAs (Decidable (_ ∧ _))

/-- A path of policies is one segment and a hole. -/
theorem matchAll_hole {segs args : List Str} :
    Part.matchAll [.hole] segs = some args ↔ ∃ s, s ≠ [] ∧ segs = [s] ∧ args = [s] := by
  match segs with
  | [] => exact ⟨nofun, fun ⟨_, _, hsegs, _⟩ => absurd hsegs (List.cons_ne_nil _ _).symm⟩
  | [s] =>
      rw [Part.matchAll]
      by_cases hs : s = []
      · rw [if_pos hs]
        refine ⟨nofun, ?_⟩
        rintro ⟨t, ht, hsegs, _⟩
        cases hsegs
        exact absurd hs ht
      · rw [if_neg hs]
        constructor
        · rintro ⟨⟩
          exact ⟨s, hs, rfl, rfl⟩
        · rintro ⟨t, _, hsegs, rfl⟩
          cases hsegs
          rfl
  | s :: t :: rest =>
      have hnone : Part.matchAll [.hole] (s :: t :: rest) = none := by
        rw [Part.matchAll]
        split <;> rfl
      rw [hnone]
      refine ⟨nofun, ?_⟩
      rintro ⟨_, _, hsegs, _⟩
      cases hsegs

theorem captured_policies (rest : Str) (template : List Part) :
    CoreSim.captured (text "/policies/" ++ rest) template =
      Part.matchAll template (text "policies" :: segments rest) := by
  have hpath : text "/policies/" ++ rest = slash :: (text "policies" ++ slash :: rest) := rfl
  have hsegments : segments (text "policies" ++ slash :: rest) =
      text "policies" :: segments rest :=
    List.splitOn_append_cons_self_of_not_mem (by decide) rest
  rw [hpath, CoreSim.captured, if_pos rfl, hsegments]

/-- A path that starts as a policy's is matched with the route policies are read
    at, or with none. -/
theorem routed_policies {rest : Str} {matched : Operation × List Str} :
    routed .get (text "/policies/" ++ rest) = .ok matched ↔
      ∃ s, s ≠ [] ∧ segments rest = [s] ∧ matched = (.readPolicy, [s]) := by
  -- No other route begins with the same segment.
  have hnone : ∀ s, s ≠ text "policies" → ∀ parts,
      Part.matchAll (.lit s :: parts) (text "policies" :: segments rest) = none := by
    intro s hs parts
    rw [Part.matchAll, if_neg hs]
  have hfound : (CoreSim.routes.findSome? fun (operation, served, template) =>
      if served = Method.get then
        (CoreSim.captured (text "/policies/" ++ rest) template).map (operation, ·) else none) =
      (Part.matchAll [.hole] (segments rest)).map (Operation.readPolicy, ·) := by
    have hpolicies : Part.matchAll [.lit (text "policies"), .hole]
        (text "policies" :: segments rest) = Part.matchAll [.hole] (segments rest) := by
      rw [Part.matchAll, if_pos rfl]
    simp only [CoreSim.routes, captured_policies, List.findSome?_cons, List.findSome?_nil,
      hnone (text "openapi.json") (by decide), hnone (text "docs") (by decide),
      hnone (text "redoc") (by decide), hnone (text "healthz") (by decide),
      hnone (text "claims") (by decide), hpolicies, if_true, reduceCtorEq, if_false,
      Option.map_none]
    cases (Part.matchAll [.hole] (segments rest)).map (Operation.readPolicy, ·) <;> rfl
  unfold routed
  simp only [hfound]
  cases hmatched : Part.matchAll [.hole] (segments rest) with
  | some args =>
      rcases matchAll_hole.mp hmatched with ⟨s, hs, hsegs, rfl⟩
      simp only [Option.map_some, Except.ok.injEq]
      constructor
      · rintro rfl
        exact ⟨s, hs, hsegs, rfl⟩
      · rintro ⟨t, _, hsegs', rfl⟩
        rw [hsegs] at hsegs'
        cases hsegs'
        rfl
  | none =>
      -- What no route matches is answered with a status, and nothing is called.
      refine ⟨fun h => ?_, ?_⟩
      · simp only [Option.map_none] at h
        split at h
        · cases h
        · split at h <;> cases h
      · rintro ⟨s, hs, hsegs, _⟩
        rw [matchAll_hole.mpr ⟨s, hs, hsegs, rfl⟩] at hmatched
        cases hmatched

/-- A number that can be quoted and is no dot segment is read behind its
    prefix. -/
theorem addressed_of_quote {policyNumber quoted : Str} (h : quote policyNumber = some quoted)
    (hdot : policyNumber ≠ dot) (hdots : policyNumber ≠ dots) :
    addressed policyNumber = some (routed .get (text "/policies/" ++ policyNumber)) := by
  have hpath : text "/policies/" ++ quoted = slash :: (text "policies" ++ slash :: quoted) := rfl
  have hsegments : segments (text "policies" ++ slash :: quoted) = [text "policies", quoted] := by
    rw [segments, List.splitOn_append_cons_self_of_not_mem (by decide),
      List.splitOn_eq_singleton (slash_notMem_quote h)]
  have hplain : ∀ s ∈ segments (text "policies" ++ slash :: quoted), s ≠ dot ∧ s ≠ dots := by
    intro s hs
    rw [hsegments] at hs
    rcases List.mem_pair.mp hs with rfl | rfl
    · exact ⟨by decide, by decide⟩
    · -- Only a dot segment is quoted as one.
      refine ⟨?_, ?_⟩
      · rintro rfl
        exact hdot (quote_inj h (by decide))
      · rintro rfl
        exact hdots (quote_inj h (by decide))
  have hread : unquote (text "/policies/" ++ quoted) = some (text "/policies/" ++ policyNumber) :=
    unquote_append (by decide) (by decide) h
  simp only [addressed, policyPath, h, Option.map_some, Option.bind_eq_bind, Option.bind_some]
  rw [hpath, removeDotSegments_of_plain hplain, ← hpath, hread]
  rfl

/-- Neither dot segment is left in the path that is sent. -/
theorem addressed_dots :
    addressed dot = some (.error 404) ∧ addressed dots = some (.error 404) := by
  decide +kernel

theorem addressed_of_not_scalars {policyNumber : Str} (h : ¬ Scalars policyNumber) :
    addressed policyNumber = none := by
  have hquote : quote policyNumber = none := if_neg h
  simp only [addressed, policyPath, hquote, Option.map_none, Option.bind_eq_bind,
    Option.bind_none]

/-- What a number is addressed as: nothing where it cannot be quoted, nothing
    that is served where it is a dot segment, and otherwise what is matched with
    its prefix and itself. -/
theorem addressed_cases (policyNumber : Str) :
    (¬ Scalars policyNumber ∧ addressed policyNumber = none) ∨
      ((policyNumber = dot ∨ policyNumber = dots) ∧ addressed policyNumber = some (.error 404)) ∨
      (Scalars policyNumber ∧ policyNumber ≠ dot ∧ policyNumber ≠ dots ∧
        addressed policyNumber = some (routed .get (text "/policies/" ++ policyNumber))) := by
  by_cases hscalars : Scalars policyNumber
  · by_cases hdot : policyNumber = dot
    · exact Or.inr (Or.inl ⟨Or.inl hdot, hdot ▸ addressed_dots.1⟩)
    · by_cases hdots : policyNumber = dots
      · exact Or.inr (Or.inl ⟨Or.inr hdots, hdots ▸ addressed_dots.2⟩)
      · have hquote : quote policyNumber = some _ := if_pos hscalars
        exact Or.inr (Or.inr ⟨hscalars, hdot, hdots, addressed_of_quote hquote hdot hdots⟩)
  · exact Or.inl ⟨hscalars, addressed_of_not_scalars hscalars⟩

/-- No number is taken for anything but itself, at the route of policies. -/
theorem addressed_policy {policyNumber : Str} {matched : Operation × List Str}
    (h : addressed policyNumber = some (.ok matched)) :
    matched = (.readPolicy, [policyNumber]) := by
  rcases addressed_cases policyNumber with ⟨_, hnone⟩ | ⟨_, herror⟩ | ⟨_, _, _, hrouted⟩
  · rw [hnone] at h
    cases h
  · rw [herror] at h
    cases h
  · rw [hrouted, Option.some.injEq, routed_policies] at h
    rcases h with ⟨s, _, hsegments, rfl⟩
    rw [(segments_eq_singleton.mp hsegments).2]

/-- A number arrives exactly if it has UTF-8 and is a segment of its own. -/
theorem arrives_iff {policyNumber : Str} (hne : policyNumber ≠ []) :
    Arrives policyNumber ↔ Scalars policyNumber ∧ Segment policyNumber := by
  unfold Arrives
  rcases addressed_cases policyNumber with ⟨hnot, hnone⟩ | ⟨hdot, herror⟩ |
    ⟨hscalars, hdot, hdots, hrouted⟩
  · rw [hnone]
    exact iff_of_false nofun fun h => hnot h.1
  · rw [herror]
    refine iff_of_false nofun ?_
    rintro ⟨_, _, hnotDot, hnotDots⟩
    rcases hdot with h | h
    · exact hnotDot h
    · exact hnotDots h
  · rw [hrouted, Option.some.injEq, routed_policies]
    constructor
    · rintro ⟨s, _, hsegments, _⟩
      exact ⟨hscalars, (segments_eq_singleton.mp hsegments).1, hdot, hdots⟩
    · rintro ⟨_, hslash, _⟩
      exact ⟨policyNumber, hne, segments_eq_singleton.mpr ⟨hslash, rfl⟩, rfl⟩

/-! ### What is answered -/

/-- A text a column takes has UTF-8. -/
theorem scalars_of_storable {s : Str} (h : Storable s) : Scalars s :=
  fun c hc => (h c hc).2

theorem sends_of_takes {db : Condition} {place : CoreSim.Place} (h : db.Takes place) :
    db.sends place = .ok (db.tables place) := by
  refine if_neg fun hfails => ?_
  rw [Condition.Takes, hfails] at h
  cases h

/-- The schema is there once its statements are taken. -/
theorem applySchema_of_opens {db : Condition} (h : db.Opens) : db.applySchema = .ok () := by
  -- One statement after another, and each of them is taken.
  have hforM : ∀ l : List Nat, (∀ n ∈ l, db.Takes (.schema n)) →
      (l.forM fun n => do let _ ← db.sends (.schema n)) = .ok () := by
    intro l
    induction l with
    | nil => exact fun _ => rfl
    | cons n l ih =>
        intro hl
        have hrest := ih fun m hm => hl m (List.mem_cons_of_mem n hm)
        simp only [List.forM_eq_forM, List.forM_cons, sends_of_takes (hl n List.mem_cons_self)]
          at hrest ⊢
        exact hrest
  unfold Condition.applySchema
  split
  · rfl
  · rename_i happlied
    exact hforM _ fun n hn => h.2 (Bool.eq_false_of_not_eq_true happlied) n (List.mem_range.mp hn)

/-- A connection that opens and commits comes to what is done over it. -/
theorem connection_of_opens {α : Type} {db : Condition} (h : db.Opens) (hcommit : db.Takes .commit)
    (body : Except CoreSim.Raised α) : db.connection body = body := by
  rw [Condition.connection, sends_of_takes h.1, applySchema_of_opens h]
  cases body with
  | error raised => rfl
  | ok a =>
      simp only [sends_of_takes hcommit]
      rfl

/-- What the systems make of a look-up whose statements they can make. -/
theorem readPolicy_of_opens {db : Condition} (h : db.Opens) (hselect : db.Takes .select)
    (hcommit : db.Takes .commit) (policyNumber : Str) :
    CoreSim.readPolicy db policyNumber =
      if Storable policyNumber then
        match (db.tables .select).policies policyNumber with
        | none => .error (.policyNotFound policyNumber)
        | some policy => .ok policy
      else .error .dataError := by
  rw [CoreSim.readPolicy, connection_of_opens h hcommit]
  split
  · have hrow : (do let t ← db.sends .select; return t.policies policyNumber) =
        Except.ok ((db.tables .select).policies policyNumber) := by
      rw [sends_of_takes hselect]
      rfl
    rw [hrow]
    cases (db.tables .select).policies policyNumber <;> rfl
  · rfl

/-- The client is told of a policy the systems do not hold. -/
theorem answered_unknown {policyNumber : Str} (h : Storable policyNumber) :
    ∃ detail, answered 200 (CoreSim.replied 200 .policy
      (.error (.policyNotFound policyNumber) : Except CoreSim.Raised Policy)) =
        .error (.refusal 404 ⟨.policyNotFound, detail⟩) := by
  have hencodable : Boundary.Encodable (text "unknown policy " ++ policyNumber) :=
    Boundary.encodable_append.mpr
      ⟨Boundary.encodable_of_printable (by decide), CoreSim.encodable_of_storable h⟩
  have hreply : CoreSim.replied 200 .policy
      (.error (.policyNotFound policyNumber) : Except CoreSim.Raised Policy) =
        .failed 404 ⟨.policyNotFound, text "unknown policy " ++ policyNumber⟩ :=
    CoreSim.refused_of_encodable hencodable
  exact ⟨_, congrArg (answered 200) hreply⟩

/-- A number is answered exactly if it arrives and a text column takes it. -/
theorem answers_iff {policyNumber : Str}
    (hlength : 1 ≤ policyNumber.length ∧ policyNumber.length ≤ 64)
    {others : Operation → List Str → Reply} {db : Condition} (hopens : db.Opens)
    (hselect : db.Takes .select) (hcommit : db.Takes .commit) :
    Answers others db policyNumber ↔ Storable policyNumber ∧ Segment policyNumber := by
  have hne : policyNumber ≠ [] := List.ne_nil_of_length_pos hlength.1
  by_cases harrives : Arrives policyNumber
  · have harrival : arrival policyNumber = .handed (.readPolicy policyNumber) := by
      rw [arrival, if_neg (by omega), if_neg (by omega)]
    have hcall : readPolicy others db policyNumber =
        answered 200 (CoreSim.replied 200 .policy (CoreSim.readPolicy db policyNumber)) := by
      rw [readPolicy, show addressed policyNumber = _ from harrives]
      simp only [served, harrival]
      rfl
    have hsegment := ((arrives_iff hne).mp harrives).2
    rw [Answers, hcall, readPolicy_of_opens hopens hselect hcommit]
    by_cases hstorable : Storable policyNumber
    · rw [if_pos hstorable]
      refine iff_of_true ?_ ⟨hstorable, hsegment⟩
      cases (db.tables .select).policies policyNumber with
      | some policy => simp only [CoreSim.replied, answered, if_true]
      | none => exact answered_unknown hstorable
    · -- The driver refuses the number, and nothing handles what it raises.
      rw [if_neg hstorable]
      refine iff_of_false ?_ fun h => hstorable h.1
      cases (db.tables .select).policies policyNumber with
      | some policy => exact nofun
      | none => exact nofun
  · -- A number that does not arrive is answered by something other than the look-up.
    refine iff_of_false ?_ fun h => harrives ((arrives_iff hne).mpr ⟨scalars_of_storable h.1, h.2⟩)
    have hfailed : ∃ failure, readPolicy others db policyNumber = .error failure ∧
        ∀ error, failure ≠ .refusal 404 error := by
      unfold readPolicy
      cases haddressed : addressed policyNumber with
      | none => exact ⟨_, rfl, nofun⟩
      | some matched =>
          cases matched with
          | error statusCode => exact ⟨_, rfl, nofun⟩
          | ok matched =>
              rw [addressed_policy haddressed] at haddressed
              exact absurd haddressed harrives
    rcases hfailed with ⟨failure, hcall, hfailure⟩
    rw [Answers, hcall]
    cases (db.tables .select).policies policyNumber with
    | some policy => exact nofun
    | none =>
        rintro ⟨detail, hrefusal⟩
        exact hfailure _ (Except.error.inj hrefusal)

/-- A policy looked up by any number of 1 to 64 characters, of systems whose
    database takes the look-up's statements. No number is taken for another, or
    for anything else the systems serve; it reaches the route of policies exactly
    if it has UTF-8, has no slash and is no dot segment; and the call returns the
    policy, or raises that there is none, exactly if it does so and has no zero
    character, which the database refuses. -/
theorem reads_iff {policyNumber : Str}
    (hlength : 1 ≤ policyNumber.length ∧ policyNumber.length ≤ 64)
    (others : Operation → List Str → Reply) {db : Condition} (hopens : db.Opens)
    (hselect : db.Takes .select) (hcommit : db.Takes .commit) :
    (∀ matched, addressed policyNumber = some (.ok matched) →
      matched = (.readPolicy, [policyNumber])) ∧
    (Arrives policyNumber ↔ Scalars policyNumber ∧ Segment policyNumber) ∧
    (Arrives policyNumber ∧ Answers others db policyNumber ↔
      Storable policyNumber ∧ Segment policyNumber) := by
  have harrives := arrives_iff (List.ne_nil_of_length_pos hlength.1)
  refine ⟨fun _ => addressed_policy, harrives, ?_⟩
  rw [answers_iff hlength hopens hselect hcommit]
  refine and_iff_right_of_imp fun h => ?_
  exact harrives.mpr ⟨scalars_of_storable h.1, h.2⟩

/-- A database with the policies the systems hold from the start, that answers. -/
def answering : Condition where
  schemaApplied := true
  fails _ := false
  tables _ := CoreSim.Tables.seeded

theorem opens_answering : answering.Opens :=
  ⟨rfl, fun h => absurd h (by decide)⟩

theorem reads_seeded :
    Arrives (text "SIM-2026-0001") ∧
      Answers (fun _ _ => .crashed) answering (text "SIM-2026-0001") :=
  (reads_iff (by decide) _ opens_answering rfl rfl).2.2.mpr ⟨by decide +kernel, by decide +kernel⟩

/-- A number with a slash reaches nothing, nor does a dot segment, and what is
    answered to it is not in the contract. -/
theorem not_reads_slash :
    (1 ≤ (text "SIM/2026").length ∧ (text "SIM/2026").length ≤ 64) ∧
      ¬ Arrives (text "SIM/2026") ∧ ¬ Arrives dot ∧ ¬ Arrives dots ∧
      ¬ Answers (fun _ _ => .crashed) answering (text "SIM/2026") ∧
      readPolicy (fun _ _ => .crashed) answering (text "SIM/2026") =
        .error (.unexpectedResponse 404) := by
  have haddressed : addressed (text "SIM/2026") = some (.error 404) := by decide +kernel
  have hcall : readPolicy (fun _ _ => .crashed) answering (text "SIM/2026") =
      .error (.unexpectedResponse 404) := by
    rw [readPolicy, haddressed]
    rfl
  have hnone : (answering.tables .select).policies (text "SIM/2026") = none := by decide +kernel
  refine ⟨by decide, ?_, ?_, ?_, ?_, hcall⟩
  · rw [Arrives, haddressed]
    exact nofun
  · rw [Arrives, addressed_dots.1]
    exact nofun
  · rw [Arrives, addressed_dots.2]
    exact nofun
  · rw [Answers, hnone]
    rintro ⟨detail, hrefusal⟩
    rw [hcall] at hrefusal
    cases hrefusal

end Client

end ClaimTriage
