import AccessControl.Decision.Fold
import AccessControl.Modification.Request
import AccessControl.Restriction.Provider

/-!
# Plans of edits

Requested modifications are carried out as a sequence of edits, each of them one
operation on one privilege or on everything that is decided. The edits come in
four phases:

* the deletion of sides of privileges, in the order of the request;
* the deletion of restrictions, in the order of the request;
* what is done with privileges, general ones before specific ones, and for each
  of them in such an order that allowing wins over denying;
* the addition of restrictions, those of everything first, then those of general
  privileges before those of specific ones.

Where a name is unknown the plan has an error in the place of an edit, and is
carried out up to there. The plan does not depend on the decisions it is for.
-/

namespace AccessControl

/-- An operation on the decisions about a privilege, or about all privileges
    that there are decisions about. -/
structure Edit where
  /-- The operation. -/
  operation : Operation
  /-- The privilege it is for; none for all. -/
  target : Option Privilege

/-- Edits to be made one after the other, up to the first error. -/
abbrev Plan := List (Except Error Edit)

namespace DecisionMap

/-- Makes one edit. -/
def edit (m : DecisionMap) (ed : Edit) : Except Error DecisionMap :=
  m.perform ed.operation ((ed.target.map fun p => [p]).getD m.privileges)

/-- Carries out a plan: the map after the last edit that could be made, and the
    error that stopped the plan, if there was one. -/
def carryOut (m : DecisionMap) : Plan → DecisionMap × Option Error
  | [] => (m, none)
  | .error e :: _ => (m, some e)
  | .ok ed :: plan =>
    match m.edit ed with
    | .ok m => m.carryOut plan
    | .error e => (m, some e)

end DecisionMap

namespace Plan

/-- The plan that makes edits if they could be worked out. -/
def ofExcept : Except Error (List Edit) → Plan
  | .ok edits => edits.map .ok
  | .error e => [.error e]

end Plan

namespace Modifications

variable (m : Modifications) (r : Registry) (known : Vocabulary) (d : DepthIndex)

/-- The deletion of sides of privileges. -/
def deletePrivileges : Plan :=
  m.privilegeDeletes.flatMap fun delete => Plan.ofExcept do
    let p ← r.privilege (.text delete.1)
    return delete.2.flatMap fun v => v.clearing.map fun op => ⟨op, some p⟩

/-- The deletion of restrictions. The restriction is checked before the
    privilege. -/
def deleteRestrictions : Plan :=
  m.restrictionDeletes.flatMap fun delete => Plan.ofExcept do
    let _ ← known.definition delete.restriction
    let target ← delete.privilege.mapM fun p => r.privilege (.text p)
    return delete.values.map fun v => ⟨v.unrestricting delete.restriction, target⟩

/-- What is done with privileges. All names are looked up first. -/
def decidePrivileges : Plan := Plan.ofExcept do
  let requested ← m.privileges.mapM fun p => return (← r.privilege (.text p.1), p.2)
  let ordered := requested.mergeSort fun p q => d.precedes p.1.id q.1.id
  return ordered.flatMap fun p =>
    (PrivilegeValue.inOrder.reverse.filter p.2.contains).map fun v => ⟨v.operation ∅, some p.1⟩

/-- A restriction that is to be added. -/
structure Addition where
  /-- The privilege that is restricted; none for everything. -/
  privilege : Option Privilege
  /-- The side that is restricted; none for those in force. -/
  effect : Option Effect
  /-- The restriction. -/
  restriction : Restriction

/-- The restriction that a request adds. The privilege is checked before the
    restriction. -/
def addition (request : RestrictionRequest) : Except Error Addition := do
  let p ← request.target.mapM fun t => r.privilege (.text t.1)
  let definition ← known.definition request.restriction
  return ⟨p, request.target.map Prod.snd,
    ← (RestrictionDraft.ofRaw definition (.list request.values)).settle⟩

/-- The operation that adds a restriction to a side, or to the sides in force. -/
def adding (restriction : Restriction) : Option Effect → Operation
  | some e => .set e (.single restriction)
  | none => .restrict (.single restriction)

/-- The edits that add the restrictions of one privilege, or of everything: each
    restriction in the order of its first mention, the side that denies before
    the one that allows. -/
def additionsFor (all : List Addition) (target : Option Privilege) : List Edit :=
  let own := all.filter fun a => a.privilege.map Privilege.id == target.map Privilege.id
  (own.map Addition.restriction).eraseDups.flatMap fun restriction =>
    [some .deny, some .allow, none].filterMap fun effect =>
      if own.any fun a => a.restriction == restriction && a.effect == effect then
        some ⟨adding restriction effect, target⟩
      else none

/-- The addition of restrictions. All names are looked up first. -/
def addRestrictions : Plan := Plan.ofExcept do
  let all ← m.restrictions.mapM (addition r known)
  let privileges := all.filterMap Addition.privilege
  let ids := (privileges.map Privilege.id).eraseDups.mergeSort d.precedes
  let targets := ids.filterMap fun id => privileges.find? fun p => p.id == id
  return additionsFor all none ++ targets.flatMap fun p => additionsFor all (some p)

/-- The plan of all modifications. -/
def plan : Plan :=
  m.deletePrivileges r ++ m.deleteRestrictions r known ++ m.decidePrivileges r d ++
    m.addRestrictions r known d

end Modifications

end AccessControl
