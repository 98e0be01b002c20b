import AccessControl.Error
import AccessControl.Privilege.Bundle

/-!
# Privileges

A privilege is a bundle together with what is asked of it all the time, worked
out once: its leaves and the privileges below it. As an aggregate takes both
from its children, a privilege that many aggregates share is not resolved again
for each of them.

Privileges are told apart by name.

* `Privilege.leaves?_eq`, `Privilege.descendants_eq` (fields): what a privilege
  remembers is what its bundle says.
-/

namespace AccessControl

/-- A privilege. -/
structure Privilege where
  /-- How the privilege is made up. -/
  bundle : Bundle
  /-- Its leaves, if it can be resolved. -/
  leaves? : Option (List String)
  /-- The names of the privileges strictly below it. -/
  descendants : Std.ExtTreeSet String
  /-- The leaves are those of the bundle. -/
  leaves?_eq : leaves? = bundle.leaves?
  /-- The privileges below are those below the bundle. -/
  descendants_eq : descendants = bundle.descendants

namespace Privilege

/-- The name of a privilege. -/
def id (p : Privilege) : String := p.bundle.id

/-- The names of the children of a privilege, in order. -/
def children (p : Privilege) : List String := p.bundle.children.map Bundle.id

/-- Whether a privilege is an aggregate. -/
def isAggregate (p : Privilege) : Bool := p.bundle.isAggregate

/-- An atomic privilege. -/
def atomic (id : String) : Privilege where
  bundle := .atomic id
  leaves? := some [id]
  descendants := ∅
  leaves?_eq := by simp [Bundle.leaves?]
  descendants_eq := by simp [Bundle.descendants]

/-- A privilege known by name only. -/
def nominal (id : String) : Privilege where
  bundle := .nominal id
  leaves? := none
  descendants := ∅
  leaves?_eq := by simp [Bundle.leaves?]
  descendants_eq := by simp [Bundle.descendants]

/-- The leaves of several privileges one after the other. -/
def leavesOfAll? : List Privilege → Option (List String)
  | [] => some []
  | p :: ps => p.leaves?.bind fun ls => (leavesOfAll? ps).map (ls ++ ·)

/-- The names of the given privileges and of those below them. -/
def descendantsOfAll : List Privilege → Std.ExtTreeSet String
  | [] => ∅
  | p :: ps => p.descendants.insert p.id ∪ descendantsOfAll ps

theorem leavesOfAll?_eq (ps : List Privilege) :
    leavesOfAll? ps = Bundle.leavesOfAll? (ps.map bundle) := by
  induction ps with
  | nil => rw [leavesOfAll?, List.map_nil, Bundle.leavesOfAll?]
  | cons p ps ih => rw [leavesOfAll?, List.map_cons, Bundle.leavesOfAll?, ih, p.leaves?_eq]

theorem descendantsOfAll_eq (ps : List Privilege) :
    descendantsOfAll ps = Bundle.descendantsOfAll (ps.map bundle) := by
  induction ps with
  | nil => rw [descendantsOfAll, List.map_nil, Bundle.descendantsOfAll]
  | cons p ps ih =>
    rw [descendantsOfAll, List.map_cons, Bundle.descendantsOfAll, ih, p.descendants_eq, id]

/-- The privilege that bundles the given ones. -/
def bundling (id : String) (children : List Privilege) : Privilege where
  bundle := .aggregate id (children.map bundle)
  leaves? := (leavesOfAll? children).map List.eraseDups
  descendants := descendantsOfAll children
  leaves?_eq := by rw [Bundle.leaves?, leavesOfAll?_eq]
  descendants_eq := by rw [Bundle.descendants, descendantsOfAll_eq]

/-- An aggregate of the given privileges, of which there must be some. -/
def aggregate (id : String) (children : List Privilege) : Except Error Privilege :=
  if children.isEmpty then .error (.emptyAggregate id) else .ok (bundling id children)

/-- The leaves of a privilege, which must be resolvable. -/
def leaves (p : Privilege) : Except Error (List String) :=
  match p.leaves? with
  | some ls => .ok ls
  | none => .error (.noLeaves p.id)

/-- The leaves of several privileges, each once, in the order in which they are
    first met. -/
def expand (ps : List Privilege) : Except Error (List String) := do
  return (← ps.mapM leaves).flatten.eraseDups

/-- The description of a privilege. -/
def describe (p : Privilege) : String :=
  let kind := match p.bundle with
    | .atomic _ => "AtomicPrivilege"
    | .nominal _ => "Privilege"
    | .aggregate .. => "AggregatePrivilege"
  kind ++ "('" ++ p.id ++ "')"

end Privilege

end AccessControl
