import Mathlib.Data.List.Basic

/-!
# Hash Chains

A sequence of records in which each carries the hash of the record before it
and a digest of everything it holds, that link included.

What a chain commits to is everything. Two intact chains that end in the same
hash are the same chain, whatever their lengths: the last records have one
digest, so one content, so one link to the record before, and so on back to
the start. The start is where lengths could differ, a record of one chain
standing where the other begins, and that is ruled out by the start's hash
being nobody's digest.

Collisions enter through one hypothesis, stated for the records at hand: a
digest determines the content of the record among these records. It is stated
that way because no digest of fixed size can be injective on all records, and
a theorem that assumed so would be about nothing.

The chain is read from its end here, the last record first, since that is how
the argument goes. `Intact` says so of a reversed list, and the records of a
log are that list's reverse.

## Main definitions

* `Scheme`: How records link: the start, the link, the hash, the digest.
* `Scheme.tip`: The hash the next record has to carry as its link.
* `Scheme.Intact`: Every record links onto the one before it and hashes to
  what it says.
* `Scheme.Determined`: Among some records, a digest determines the record.

## Theorems

* `eq_of_tip_eq`: Intact chains with one tip are one chain.
* `Intact.link_head`, `Intact.link_succ`: What each record of a chain links
  onto.
-/

namespace Theory

namespace Chain

/-- How records link: the hash the first one links onto, the link a record
    carries, the hash it carries, and the digest it ought to carry. -/
structure Scheme (Record Hash : Type*) where
  genesis : Hash
  link : Record → Hash
  hash : Record → Hash
  digest : Record → Hash

namespace Scheme

variable {Record Hash : Type*} (c : Scheme Record Hash)

/-- The hash the next record links onto: that of the last one. -/
def tip : List Record → Hash
  | [] => c.genesis
  | r :: _ => c.hash r

/-- Every record, last first, links onto the one before it and hashes to what
    it says it holds. -/
def Intact : List Record → Prop
  | [] => True
  | r :: rest => c.link r = c.tip rest ∧ c.digest r = c.hash r ∧ Intact rest

/-- Among the records of `rs`, one digest is one record, and no digest is the
    start's hash. -/
structure Determined (rs : List Record) : Prop where
  injective : ∀ r ∈ rs, ∀ s ∈ rs, c.hash r = c.hash s → c.digest r = c.digest s → r = s
  apart : ∀ r ∈ rs, c.digest r ≠ c.genesis

variable {c}

/-- Intact chains with one tip are one chain. The induction is on one of the
    two, from its last record back; the other one's length follows. -/
theorem eq_of_tip_eq {rs ss : List Record} (hr : c.Intact rs) (hs : c.Intact ss)
    (hd : c.Determined (rs ++ ss)) (htip : c.tip rs = c.tip ss) : rs = ss := by
  induction rs generalizing ss with
  | nil =>
      cases ss with
      | nil => rfl
      | cons s ss =>
          -- The other chain would go on where this one begins.
          have hgen : c.digest s = c.genesis := by
            rw [hs.2.1]
            exact htip.symm
          exact absurd hgen (hd.apart s (by simp only [List.nil_append, List.mem_cons, true_or]))
  | cons r rs ih =>
      cases ss with
      | nil =>
          have hgen : c.digest r = c.genesis := by
            rw [hr.2.1]
            exact htip
          exact absurd hgen (hd.apart r (by simp only [List.cons_append, List.mem_cons, true_or]))
      | cons s ss =>
          rcases hr with ⟨hlr, hhr, hr⟩
          rcases hs with ⟨hls, hhs, hs⟩
          have hhash : c.hash r = c.hash s := htip
          have hrs : r = s := hd.injective r (List.mem_append_left _ List.mem_cons_self)
            s (List.mem_append_right _ List.mem_cons_self) hhash (by rw [hhr, hhs, hhash])
          subst hrs
          have hrest : c.Determined (rs ++ ss) := by
            have hsub : ∀ t ∈ rs ++ ss, t ∈ r :: rs ++ r :: ss := by
              intro t ht
              rcases List.mem_append.mp ht with ht | ht
              · exact List.mem_append_left _ (List.mem_cons_of_mem _ ht)
              · exact List.mem_append_right _ (List.mem_cons_of_mem _ ht)
            exact ⟨fun t ht u hu => hd.injective t (hsub t ht) u (hsub u hu),
              fun t ht => hd.apart t (hsub t ht)⟩
          rw [ih hr hs hrest (hlr.symm.trans hls)]

theorem Intact.of_append {rs ss : List Record} (h : c.Intact (rs ++ ss)) : c.Intact ss := by
  induction rs with
  | nil => exact h
  | cons r rs ih => exact ih h.2.2

/-- A record of a chain links onto the records before it. -/
theorem Intact.link_getElem {rs : List Record} (h : c.Intact rs.reverse) {n : Nat} {r : Record}
    (hr : rs[n]? = some r) : c.link r = c.tip (rs.take n).reverse := by
  rcases List.getElem?_eq_some_iff.mp hr with ⟨hlt, hget⟩
  -- What comes after the record is at the front of the reversed chain.
  have hsplit : rs.reverse = (rs.drop (n + 1)).reverse ++ r :: (rs.take n).reverse := by
    conv_lhs => rw [← List.take_append_drop n rs, List.drop_eq_getElem_cons hlt, hget]
    rw [List.reverse_append, List.reverse_cons, List.append_assoc]
    rfl
  rw [hsplit] at h
  exact h.of_append.1

/-- The first record links onto the start. -/
theorem Intact.link_head {rs : List Record} (h : c.Intact rs.reverse) {r : Record}
    (hr : rs.head? = some r) : c.link r = c.genesis := by
  rw [List.head?_eq_getElem?] at hr
  exact h.link_getElem hr

/-- Every other record links onto the one before it. -/
theorem Intact.link_succ {rs : List Record} (h : c.Intact rs.reverse) {n : Nat} {r s : Record}
    (hr : rs[n]? = some r) (hs : rs[n + 1]? = some s) : c.link s = c.hash r := by
  rw [h.link_getElem hs, List.take_add_one, hr, List.reverse_append]
  rfl

end Scheme

end Chain

end Theory
