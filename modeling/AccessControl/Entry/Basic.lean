import AccessControl.Decision.Operation
import AccessControl.Privilege.Reference

/-!
# Access control entries

An entry allows or denies privileges to a principal, under restrictions. The
entries of a principal, one after the other, make up the decisions about them
(`DecisionMap.ofEntries`).
-/

namespace AccessControl

/-- Who an entry is about. Principals are told apart by sameness. -/
abbrev Principal := Scalar

/-- An access control entry. -/
structure Entry where
  /-- The principal that the entry is about. -/
  principal : Principal
  /-- What the entry does. -/
  effect : Effect
  /-- The privileges it does it with, in order. -/
  privileges : List Privilege
  /-- The restrictions under which it does so. -/
  restrictions : RestrictionSet

namespace Entry

/-- An entry about designated privileges, of which there must be some. Names are
    looked up one after the other, before anything else is checked. -/
def make (r : Registry) (principal : Principal) (effect : Effect)
    (privileges : List Designation) (restrictions : List RestrictionDraft) :
    Except Error Entry := do
  let ps ← privileges.mapM r.look
  if ps.isEmpty then .error .noPrivilege
  else return ⟨principal, effect, ps, ← RestrictionSet.ofDrafts restrictions⟩

/-- Whether two entries are equal: the same effect for the same principal, the
    same privileges in the same order and the same restrictions. -/
def same (a b : Entry) : Bool :=
  a.principal == b.principal && a.effect == b.effect &&
    a.privileges.map Privilege.id == b.privileges.map Privilege.id &&
    a.restrictions.same b.restrictions

/-- The description of an entry. -/
def describe (a : Entry) : String :=
  "<AccessControlEntry: " ++ a.effect.word ++ "," ++ a.principal.plain ++ ",[" ++
    Datum.commaSeparated (a.privileges.map fun p => Text.quote p.id) ++ "]" ++
    (if a.restrictions.isEmpty then "" else " " ++ a.restrictions.describe) ++ ">"

end Entry

/-- Whether an entry is among those that are asked for: those of a principal, or
    all if no principal is given. -/
def Entry.isOf (principal : Principal) (a : Entry) : Bool :=
  principal == .null || a.principal == principal

/-- The decisions that the entries of a principal make up, or all entries if no
    principal is given. -/
def DecisionMap.ofEntries (entries : List Entry) (principal : Principal) :
    Except Error DecisionMap :=
  (entries.filter (·.isOf principal)).foldlM
    (fun m a => m.perform (.set a.effect a.restrictions) a.privileges) ∅

end AccessControl
