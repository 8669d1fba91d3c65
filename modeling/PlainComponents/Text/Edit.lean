import PlainComponents.Text.Basic

/-!
# Edits

An edit replaces the bytes between two offsets by a new text.  A list of edits is applied as a
whole: the edits are put in order of their offsets, refused if two of them clash, and then carried
out from the last to the first, so that the offsets of the edits still to come stay valid.

* `Edit.Clash` says when two edits, the first one not after the second, cannot both be carried out;
* `firstClash?` looks at neighbours only, which is enough on an ordered list;
* `Text.edit` is the whole operation, and `EditError` lists the ways in which it can fail.
-/

namespace PlainComponents

/-- Replace the bytes from `start` up to `stop` by `text`. -/
structure Edit where
  start : Nat
  stop : Nat
  text : Text
  deriving DecidableEq

/-- Why a list of edits was not carried out. -/
inductive EditError where
  /-- Two edits clash; the later one starts at `offset`. -/
  | clash (offset : Nat)
  /-- An offset lies beyond the end of the text. -/
  | beyondEnd
  deriving DecidableEq

namespace Edit

/-- The removal of the bytes from `start` up to `stop`. -/
def deletion (start stop : Nat) : Edit :=
  ⟨start, stop, []⟩

/-! ### Order and clashes -/

/-- Edits are ordered by `start`, then by `stop`. -/
def notAfter (a b : Edit) : Bool :=
  a.start < b.start || (a.start = b.start && a.stop ≤ b.stop)

/-- Two edits, given in order, clash if the first reaches into the second or both start at the
same place. -/
def Clash (a b : Edit) : Prop :=
  b.start < a.stop ∨ a.start = b.start

instance (a b : Edit) : Decidable (Clash a b) :=
  inferInstanceAs (Decidable (_ ∨ _))

/-- The start of the first edit that clashes with the one just before it. -/
def firstClash? : List Edit → Option Nat
  | a :: b :: es => if Clash a b then some b.start else firstClash? (b :: es)
  | _ => none

/-! ### Carrying out edits -/

/-- One edit.  Both offsets are rounded down to the character that holds them; a range that is
empty or runs backwards removes nothing. -/
def applyTo (e : Edit) (t : Text) : Option Text := do
  let i ← Text.charIndex? t e.start
  let j ← Text.charIndex? t e.stop
  return t.take i ++ e.text ++ t.drop (max i j)

/-- The edits of a list, the last one first. -/
def applyAll : List Edit → Text → Option Text
  | [], t => some t
  | e :: es, t => (applyAll es t).bind e.applyTo

end Edit

/-- Carries out all of the edits, given in any order, or none of them. -/
def Text.edit (t : Text) (edits : List Edit) : Except EditError Text :=
  let ordered := edits.mergeSort Edit.notAfter
  match Edit.firstClash? ordered with
  | some offset => .error (.clash offset)
  | none =>
    match Edit.applyAll ordered t with
    | some u => .ok u
    | none => .error .beyondEnd

end PlainComponents
