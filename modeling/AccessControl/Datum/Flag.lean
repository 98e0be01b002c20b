import AccessControl.Datum.Scalar

/-!
# Flags

A truth value may be given by a number that stands for it: zero for false, any
other number for true. The flag is then shown as that number, and two flags are
the same when they are the same values. So a flag that is set by the number one
is the same as one that is set by truth, and not the same as one that is set by
the number two.
-/

namespace AccessControl

/-- A truth value, or a number that stands for one. -/
inductive Flag
  | bool (b : Bool)
  | int (i : Int)
  deriving DecidableEq

namespace Flag

/-- The value that a flag is. -/
def scalar : Flag → Scalar
  | bool b => .bool b
  | int i => .int i

/-- Whether a flag is set. -/
def isTrue (f : Flag) : Bool := f.scalar.amount != 0

instance : Ord Flag := ⟨compareOn scalar⟩

/-- Flags are the same when their values are. -/
instance : BEq Flag := ⟨fun f g => f.scalar == g.scalar⟩

instance : Std.TransOrd Flag := inferInstanceAs (Std.TransCmp (compareOn scalar))

instance : Std.LawfulBEqOrd Flag :=
  ⟨fun {f g} => Std.compare_eq_iff_beq (a := f.scalar) (b := g.scalar)⟩

end Flag

end AccessControl
