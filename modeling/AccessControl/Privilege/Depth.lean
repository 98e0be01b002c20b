import AccessControl.Privilege.Basic
import Std.Data.ExtTreeMap

/-!
# Depth of privileges

How far a privilege is below another one: the number of steps from parent to
child on the longest way down. A depth index gives the depth of every privilege
below a root. It orders privileges from general to specific, in such a way that
a privilege comes before everything below it.

* `Privilege.depths`: the depth index of a privilege;
* `DepthIndex.precedes`: the order of privileges by depth and name;
* `DepthMemory`: the indexes that were worked out before.
-/

namespace AccessControl

/-- Depths of privileges, by name. -/
abbrev DepthIndex := Std.ExtTreeMap String Int

mutual

/-- Enters everything below a privilege, itself at the given depth, that is
    deeper than it was known to be. -/
def Bundle.deepen (found : DepthIndex) (depth : Int) : Bundle → DepthIndex
  | .aggregate _ children => Bundle.deepenAll found (depth + 1) children
  | _ => found

/-- Enters the given privileges at a depth, and everything below them. What is
    known to be as deep already is left alone, with all that is below it. -/
def Bundle.deepenAll (found : DepthIndex) (depth : Int) : List Bundle → DepthIndex
  | [] => found
  | b :: bs =>
    if found[b.id]?.all (· < depth) then
      Bundle.deepenAll (b.deepen (found.insert b.id depth) depth) depth bs
    else Bundle.deepenAll found depth bs

end

/-- The depth index of a privilege: itself at zero and all that is below it. -/
def Privilege.depths (p : Privilege) : DepthIndex :=
  p.bundle.deepen ((∅ : DepthIndex).insert p.id 0) 0

namespace DepthIndex

/-- The depth of a name. Names that are not in the index come after all that
    are. -/
def rank (d : DepthIndex) (id : String) : Int := d[id]?.getD d.size

/-- The order of names by depth, and by name within a depth. -/
def order (d : DepthIndex) : String → String → Ordering :=
  compareLex (compareOn d.rank) compare

/-- Whether a name comes before another one or is the same. -/
def precedes (d : DepthIndex) (a b : String) : Bool := (d.order a b).isLE

/-- Privileges in the order of their depths. -/
def sort (d : DepthIndex) (ps : List Privilege) : List Privilege :=
  ps.mergeSort fun p q => d.precedes p.id q.id

/-- The index without some names. -/
def without (d : DepthIndex) (ids : List String) : DepthIndex :=
  d.filter fun id _ => !ids.contains id

end DepthIndex

/-- Privileges in the order of their names. -/
def Privilege.sort (ps : List Privilege) : List Privilege :=
  ps.mergeSort fun p q => decide (p.id ≤ q.id)

/-- Depth indexes by the name of their root. An index that is remembered answers
    for every privilege of that name. -/
abbrev DepthMemory := Std.ExtTreeMap String DepthIndex

namespace DepthMemory

/-- The depth index for a root, and the memory in which it is remembered. -/
def consult (m : DepthMemory) (root : Privilege) : DepthIndex × DepthMemory :=
  match m[root.id]? with
  | some d => (d, m)
  | none => (root.depths, m.insert root.id root.depths)

/-- The memory of the indexes of all given privileges. -/
def ofPrivileges (ps : List Privilege) : DepthMemory :=
  ps.foldl (fun m p => m.insert p.id p.depths) ∅

end DepthMemory

end AccessControl
