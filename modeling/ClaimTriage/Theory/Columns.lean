import ClaimTriage.Theory.Form
import Mathlib.Data.List.Sort

/-!
# Typed Columns

What a relational database keeps of a value it is given: the text, JSON and
time columns of a table, from the value a statement carries to the value a
later query answers with.

A text column takes a text that can be written in UTF-8 and holds no zero
character, and keeps it. A JSON column takes the text a value is dumped to, so
what it keeps of a string is what its code units read as, and it orders an
object's fields its own way: `jsonb` is that form. A time column keeps the
instant and not the offset it was written with, and answers at the offset the
reading session is at.

## Main definitions

* `Storable`: A text column takes the text.
* `jsonb`: The form a JSON column keeps values in.
* `timestamptz`, `timestamptzRead`: What a time column keeps of a date-time,
  and what it answers a session with.

## Theorems

* `jsonb_text_of_storable`: A storable text is kept as it is.
-/

namespace Theory

open Text

/-- A text column takes the text: no zero character, and no surrogate, which
    UTF-8 has no form for. -/
def Storable (s : Str) : Prop :=
  ∀ c ∈ s, c.val ≠ 0 ∧ ¬ (0xD800 ≤ c.val ∧ c.val < 0xE000)

instance (s : Str) : Decidable (Storable s) :=
  List.decidableBAll _ s

/-- A storable text holds no surrogate pair. -/
theorem Storable.noPair {s : Str} (h : Storable s) : NoPair s := by
  induction s with
  | nil => exact List.IsChain.nil
  | cons a rest ih =>
      have ha := h a List.mem_cons_self
      refine List.isChain_cons.mpr ⟨fun b _ hpair => ?_,
        ih fun c hc => h c (List.mem_cons_of_mem _ hc)⟩
      simp only [IsHigh] at hpair
      omega

theorem storable_of_printable {s : Str} (h : Printable s) : Storable s := by
  intro c hc
  have hrange := h c hc
  omega

/-- What the code units of a text read as: the text, unless it holds a
    surrogate pair. -/
def settled (s : Str) : Str :=
  decode16 (encode16 s)

theorem settled_of_noPair {s : Str} (h : NoPair s) : settled s = s :=
  decode16_encode16 s h

/-- The order a JSON column keeps an object's fields in: shorter keys first,
    and keys of one length by their code points. -/
def keyOrder (f g : Str × Json) : Prop :=
  f.1.length < g.1.length ∨ (f.1.length = g.1.length ∧ f.1 ≤ g.1)

instance : DecidableRel keyOrder := fun _ _ => inferInstanceAs (Decidable (_ ∨ _))

/-- The form a JSON column keeps values in: of a string what its escaped code
    units read as, if that is a text the column takes. -/
def jsonb : Form where
  text s := if Storable (settled s) then some (settled s) else none
  order := List.insertionSort keyOrder
  text_printable s h := by
    rw [settled_of_noPair (storable_of_printable h).noPair, if_pos (storable_of_printable h)]
  order_perm := List.perm_insertionSort keyOrder

/-- A storable text is kept as it is. -/
theorem jsonb_text_of_storable {s : Str} (h : Storable s) : jsonb.text s = some s := by
  simp only [jsonb, settled_of_noPair h.noPair, h, if_true]

/-- A string a JSON column takes is kept as what its code units read as, and
    that is a text a text column takes. -/
theorem jsonb_text_of_isSome {s : Str} (h : (jsonb.text s).isSome) :
    jsonb.text s = some (settled s) := by
  simp only [jsonb] at h ⊢
  split at h
  · rename_i hstorable
    rw [if_pos hstorable]
  · cases h

theorem noPair_settled (s : Str) : NoPair (settled s) :=
  noPair_decode16 _

/-- What a time column keeps of a date-time: the instant of an aware one. -/
def timestamptz (t : Calendar.DateTime) : Option Int :=
  t.instant

/-- What a time column answers a session whose time zone gives the offset at
    an instant. -/
def timestamptzRead (zone : Int → Calendar.Offset) (instant : Int) : Option Calendar.DateTime :=
  Calendar.atOffset instant (zone instant)

end Theory
