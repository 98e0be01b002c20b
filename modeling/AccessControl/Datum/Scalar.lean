import AccessControl.Text.Quoted
import Std.Data.ExtTreeMap

/-!
# Single values

The values that can be members of a set or keys of a map: no value, truth
values, numbers and texts.

A truth value amounts to a number, one or zero, and counts as the same value as
that number, although the two are written differently. Wherever the library
compares values it asks whether they are the same, `==`, and where it keeps one
of several that are the same, it keeps the one that came first.

* `Scalar.instTransOrd`, `Scalar.instLawfulBEqOrd`: single values are ordered,
  and two of them are at the same place if and only if they are the same;
* `Scalar.plain`, `Scalar.literal`: how a value is shown in a message, bare or
  as a literal.
-/

namespace AccessControl

/-- A single value. -/
inductive Scalar
  | null
  | bool (b : Bool)
  | int (i : Int)
  | text (s : String)
  deriving DecidableEq, Inhabited

namespace Scalar

/-! ## Order and sameness -/

/-- The place of a kind of value in the order of values. -/
def rank : Scalar → Nat
  | null => 0
  | bool _ | int _ => 1
  | text _ => 2

/-- The number that a value amounts to. -/
def amount : Scalar → Int
  | int i => i
  | bool true => 1
  | _ => 0

/-- The text that a value is, if it is one. -/
def text? : Scalar → Option String
  | text s => some s
  | _ => none

/-- The text of a value; the empty one if it is of another kind. -/
def textPart (s : Scalar) : String := s.text?.getD ""

/-- Values are ordered by kind: no value, numbers by size (a truth value at the
    place of the number it amounts to), texts by their characters. -/
def order : Scalar → Scalar → Ordering :=
  compareLex (compareOn rank) (compareLex (compareOn amount) (compareOn textPart))

instance : Ord Scalar := ⟨order⟩

/-- Values are the same when they are at the same place in the order. -/
instance : BEq Scalar := ⟨fun s t => (compare s t).isEq⟩

instance : Std.TransCmp order := by
  unfold order
  infer_instance

instance instTransOrd : Std.TransOrd Scalar := inferInstanceAs (Std.TransCmp order)

instance instLawfulBEqOrd : Std.LawfulBEqOrd Scalar := ⟨Ordering.isEq_iff_eq_eq.symm⟩

/-! ## Values in messages -/

/-- A single value as it stands in a message. -/
def plain : Scalar → String
  | null => "None"
  | bool true => "True"
  | bool false => "False"
  | int i => toString i
  | text s => s

/-- A single value as a literal: like `plain`, with texts quoted. -/
def literal : Scalar → String
  | text s => Text.quote s
  | s => s.plain

/-- The name that a value is, if it is missing or a text. -/
def ofName : Option String → Scalar
  | none => null
  | some s => text s

end Scalar

end AccessControl
