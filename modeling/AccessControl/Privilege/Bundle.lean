import Std.Data.ExtTreeSet

/-!
# Bundles of privileges

How a privilege is made up. An *atomic* privilege cannot be taken apart, an
*aggregate* bundles other privileges, its children. A *nominal* privilege is
known by name only: it is neither of the two, and it cannot be resolved into
atomic privileges.

Being a tree, a bundle is never a part of itself, however often a privilege is
shared between the aggregates above it.

* `Bundle.leaves?`: the atomic privileges a bundle resolves into;
* `Bundle.descendants`: the privileges strictly below a bundle.
-/

namespace AccessControl

/-- A privilege written out with everything below it. -/
inductive Bundle
  | atomic (id : String)
  | nominal (id : String)
  | aggregate (id : String) (children : List Bundle)

namespace Bundle

/-- The name of a privilege. -/
def id : Bundle → String
  | atomic id | nominal id | aggregate id _ => id

/-- The children of a privilege, in order. -/
def children : Bundle → List Bundle
  | aggregate _ children => children
  | _ => []

/-- Whether a privilege is an aggregate. -/
def isAggregate : Bundle → Bool
  | aggregate .. => true
  | _ => false

mutual

/-- The names of the atomic privileges that a privilege resolves into, each
    once, in the order in which they are first met from left to right; nothing
    if it cannot be resolved. -/
def leaves? : Bundle → Option (List String)
  | atomic id => some [id]
  | nominal _ => none
  | aggregate _ children => (leavesOfAll? children).map List.eraseDups

/-- The leaves of several privileges one after the other. -/
def leavesOfAll? : List Bundle → Option (List String)
  | [] => some []
  | b :: bs => b.leaves?.bind fun ls => (leavesOfAll? bs).map (ls ++ ·)

end

mutual

/-- The names of the privileges strictly below a privilege. -/
def descendants : Bundle → Std.ExtTreeSet String
  | aggregate _ children => descendantsOfAll children
  | _ => ∅

/-- The names of the given privileges and of those below them. -/
def descendantsOfAll : List Bundle → Std.ExtTreeSet String
  | [] => ∅
  | b :: bs => b.descendants.insert b.id ∪ descendantsOfAll bs

end

end Bundle

end AccessControl
